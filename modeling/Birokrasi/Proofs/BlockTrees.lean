import Birokrasi.Extended.Execution
import Birokrasi.Proofs.Cutting

/-!
# Programs as trees

A sequence of statements of the extended language as a tree, what it does by recursion on the tree
(`Tree.run`), and the lines that it is written in (`Written`), whatever their indentation. Blocks are
never parsed: where one ends is found by counting openings and closings. `blockEnd_of_written` says
that this finds the end of a written tree, however deep the blocks inside it are, and whatever the names
and the expressions in their headers.
-/

namespace Birokrasi.Extended

open Birokrasi.Text

/-! ## Trees -/

/-- A sequence of statements. -/
inductive Tree where
  | nil
  | line (text : List Char) (next : Tree)
  | branch (condition : List Char) (body next : Tree)
  | choice (condition : List Char) (body otherwise next : Tree)
  | loop (condition : List Char) (body next : Tree)
  | count (name : String) (span : Span) (body next : Tree)

namespace Tree

/-- The number of lines that a sequence is written in. -/
def height : Tree → Nat
  | nil => 0
  | line _ next => 1 + next.height
  | branch _ body next => 1 + body.height + 1 + next.height
  | choice _ body otherwise next => 1 + body.height + 1 + otherwise.height + 1 + next.height
  | loop _ body next => 1 + body.height + 1 + next.height
  | count _ _ body next => 1 + body.height + 1 + next.height

/-- A statement and what follows it, unless the sequence is being left. -/
def inTurn (statement rest : Run Unit) : Run Unit := do
  if (← get).leaving then pure ()
  else
    statement
    rest

/-- A line at an index; empty ones and comments do nothing. -/
def runLine (call : Caller) (i : Nat) (text : List Char) : Run Unit :=
  if text.isEmpty || startsWith text ['/', '/'] then pure () else executeNumbered call (i + 1) text

/-- Executes a sequence whose first line has an index. -/
def run (call : Caller) : Tree → (i : Nat) → Run Unit
  | nil, _ => pure ()
  | line text next, i => inTurn (runLine call i text) (next.run call (i + 1))
  | branch condition body next, i =>
    inTurn (do if (← holds call condition) then body.run call (i + 1))
      (next.run call (i + 1 + body.height + 1))
  | choice condition body otherwise next, i =>
    inTurn
      (do
        if (← holds call condition) then body.run call (i + 1)
        else otherwise.run call (i + 1 + body.height + 1))
      (next.run call (i + 1 + body.height + 1 + otherwise.height + 1))
  | loop condition body next, i =>
    inTurn (whileLoop (holds call condition) (body.run call (i + 1)) roundLimit)
      (next.run call (i + 1 + body.height + 1))
  | count name span body next, i =>
    inTurn (countedLoop call (.over name span) (body.run call (i + 1)))
      (next.run call (i + 1 + body.height + 1))

end Tree

/-! ## Lines -/

/-- A trimmed line that neither starts nor parts nor ends a block. -/
def Simple (text : List Char) : Prop :=
  text ≠ closingWord.toList ∧ text ≠ "atau".toList ∧
    startsWithAny ("ataujika" :: blockWords) text = false

instance (text : List Char) : Decidable (Simple text) :=
  inferInstanceAs (Decidable (text ≠ closingWord.toList ∧ text ≠ "atau".toList ∧
    startsWithAny ("ataujika" :: blockWords) text = false))

/-- A line that is a word, with any blanks around it. -/
def Says (word : String) (raw : String) : Prop := trim raw.toList = word.toList

instance (word raw : String) : Decidable (Says word raw) :=
  inferInstanceAs (Decidable (trim raw.toList = word.toList))

/-- A line that starts with a word and an expression after it, with any blanks around them. -/
def Opens (word : String) (expr : List Char) (raw : String) : Prop :=
  ∃ rest, trim raw.toList = word.toList ++ rest ∧ trim rest = expr

/-- A name of a variable. -/
def IsName (name : String) : Prop := name ≠ "" ∧ name.toList.all isWord = true

instance (name : String) : Decidable (IsName name) :=
  inferInstanceAs (Decidable (name ≠ "" ∧ name.toList.all isWord = true))

/-- The text of an expression, without blanks around it. -/
def IsExpr (expr : List Char) : Prop := expr ≠ [] ∧ trim expr = expr

instance (expr : List Char) : Decidable (IsExpr expr) :=
  inferInstanceAs (Decidable (expr ≠ [] ∧ trim expr = expr))

namespace Span

/-- The expressions of a counted loop. -/
def exprs : Span → List (List Char)
  | items expr => [expr]
  | range first last => [first, last]

/-- What a counted loop runs over, as it is written behind its variable. -/
def clause : Span → List Char
  | items expr => " dalam ".toList ++ expr
  | range first last => " dari ".toList ++ (first ++ (" sampai ".toList ++ last))

/-- The header of a counted loop. -/
def header (name : String) (span : Span) : List Char := "untuk ".toList ++ (name.toList ++ span.clause)

end Span

/-- The header of a counted loop, with any blanks around it. -/
structure OpensLoop (name : String) (span : Span) (raw : String) : Prop where
  isName : IsName name
  isExpr : ∀ expr ∈ span.exprs, IsExpr expr
  line : trim raw.toList = span.header name

instance (name : String) (span : Span) (raw : String) : Decidable (OpensLoop name span raw) :=
  decidable_of_iff (IsName name ∧ (∀ expr ∈ span.exprs, IsExpr expr) ∧ trim raw.toList = span.header name)
    ⟨fun h => ⟨h.1, h.2.1, h.2.2⟩, fun h => ⟨h.1, h.2, h.3⟩⟩

/-- The lines that a sequence can be written in. -/
inductive Written : Tree → List String → Prop where
  | nil : Written .nil []
  | line {raw : String} {text : List Char} {next : Tree} {ls : List String} :
    trim raw.toList = text → Simple text → Written next ls → Written (.line text next) (raw :: ls)
  | branch {first last : String} {condition : List Char} {body next : Tree} {bs ls : List String} :
    Opens "jika " condition first → Written body bs → Says closingWord last → Written next ls →
      Written (.branch condition body next) (first :: (bs ++ last :: ls))
  | choice {first middle last : String} {condition : List Char} {body otherwise next : Tree}
      {bs os ls : List String} :
    Opens "jika " condition first → Written body bs → Says "atau" middle → Written otherwise os →
      Says closingWord last → Written next ls →
      Written (.choice condition body otherwise next) (first :: (bs ++ middle :: (os ++ last :: ls)))
  | loop {first last : String} {condition : List Char} {body next : Tree} {bs ls : List String} :
    Opens "selama " condition first → Written body bs → Says closingWord last → Written next ls →
      Written (.loop condition body next) (first :: (bs ++ last :: ls))
  | count {first last : String} {name : String} {span : Span} {body next : Tree}
      {bs ls : List String} :
    OpensLoop name span first → Written body bs → Says closingWord last → Written next ls →
      Written (.count name span body next) (first :: (bs ++ last :: ls))

theorem Written.length_eq {t : Tree} {ls : List String} (h : Written t ls) :
    ls.length = t.height := by
  induction h <;> simp only [Tree.height, List.length_nil, List.length_cons, List.length_append] <;>
    omega

/-! ## Where blocks end -/

section Ends

variable {keywords : List String} {depth : Int} {raw word : String} {rest ls ls' : List String}
  {line expr : List Char} {t : Tree}

theorem startsWithAny_append {words : List String} (hw : word ∈ words) (s : List Char) :
    startsWithAny words (word.toList ++ s) = true :=
  List.any_eq_true.2 ⟨word, hw, by rw [startsWith, after?_append]; rfl⟩

/-- A line that starts a block. -/
def Starts (raw : String) : Prop := startsWithAny blockWords (trim raw.toList) = true

theorem Opens.starts (h : Opens word expr raw) (hw : word ∈ blockWords) : Starts raw := by
  obtain ⟨rest, hline, -⟩ := h
  rw [Starts, hline]
  exact startsWithAny_append hw rest

theorem OpensLoop.starts {name : String} {span : Span} (h : OpensLoop name span raw) :
    Starts raw := by
  rw [Starts, h.line]
  exact startsWithAny_append (by decide) (name.toList ++ span.clause)

theorem contains_eq_false (hk : keywords ⊆ branchWords)
    (h : ∀ word ∈ branchWords, line ≠ word.toList) :
    keywords.contains (String.ofList line) = false := by
  rw [Bool.eq_false_iff]
  intro hc
  exact h _ (hk (List.contains_iff_mem.1 hc)) String.toList_ofList.symm

theorem Starts.ne_branchWord (h : Starts raw) (hw : word ∈ branchWords) :
    trim raw.toList ≠ word.toList := by
  have hnone : ∀ word ∈ branchWords, startsWithAny blockWords word.toList = false := by decide
  intro heq
  rw [Starts, heq, hnone word hw] at h
  cases h

theorem Simple.ne_branchWord (h : Simple line) (hw : word ∈ branchWords) : line ≠ word.toList := by
  obtain ⟨hclose, hpart, hstart⟩ := h
  intro heq
  simp only [branchWords, List.mem_cons, List.not_mem_nil, or_false] at hw
  rcases hw with rfl | rfl | rfl
  · rw [heq] at hstart
    exact absurd hstart (by decide)
  · exact hpart heq
  · exact hclose heq

theorem Simple.not_starts (h : Simple line) : startsWithAny blockWords line = false :=
  (Bool.or_eq_false_iff.1 h.2.2).2

theorem linesBeforeEnd_of_mem (h : word ∈ keywords) (hs : Says word raw) :
    linesBeforeEnd keywords 0 (raw :: rest) = 0 := by
  have hc : keywords.contains (String.ofList (trim raw.toList)) = true := by
    rw [hs, String.ofList_toList]
    exact List.contains_iff_mem.2 h
  simp only [linesBeforeEnd, hc, decide_true, Bool.and_self, if_true]

/-- Lines that are passed over at a depth: the end is not among them, and after them the depth is the
same again. -/
def Passed (keywords : List String) (depth : Int) (ls : List String) : Prop :=
  ∀ rest, linesBeforeEnd keywords depth (ls ++ rest) =
    ls.length + linesBeforeEnd keywords depth rest

theorem Passed.append (h : Passed keywords depth ls) (h' : Passed keywords depth ls') :
    Passed keywords depth (ls ++ ls') := by
  intro rest
  rw [List.append_assoc, h, h', List.length_append, Nat.add_assoc]

theorem passed_of_simple (hk : keywords ⊆ branchWords) (hline : trim raw.toList = line)
    (h : Simple line) : Passed keywords depth [raw] := by
  intro rest
  have hc := contains_eq_false hk fun _ => h.ne_branchWord
  simp only [List.singleton_append, linesBeforeEnd, hline, hc, Bool.and_false, Bool.false_eq_true,
    if_false, h.1, h.not_starts, List.length_singleton]

theorem passed_of_parts (hd : depth ≠ 0) (h : Says "atau" raw) : Passed keywords depth [raw] := by
  intro rest
  have hclose : "atau".toList ≠ closingWord.toList := by decide
  have hstart : startsWithAny blockWords "atau".toList = false := by decide
  rw [Says] at h
  simp only [List.singleton_append, linesBeforeEnd, hd, decide_false, Bool.false_and,
    Bool.false_eq_true, if_false, h, hclose, hstart, List.length_singleton]

/-- A block inside is passed over if its body is, one deeper. -/
theorem passed_of_block {first last : String} (hk : keywords ⊆ branchWords) (hd : 0 ≤ depth)
    (hfirst : Starts first) (hbody : Passed keywords (depth + 1) ls)
    (hlast : Says closingWord last) (hnext : Passed keywords depth ls') :
    Passed keywords depth (first :: (ls ++ last :: ls')) := by
  intro rest
  have hc := contains_eq_false hk fun _ => hfirst.ne_branchWord
  have hclose : trim first.toList ≠ closingWord.toList := hfirst.ne_branchWord (by decide)
  have hstep : linesBeforeEnd keywords depth (first :: (ls ++ last :: ls') ++ rest) =
      1 + linesBeforeEnd keywords (depth + 1) (ls ++ last :: (ls' ++ rest)) := by
    rw [Starts] at hfirst
    simp only [List.cons_append, List.append_assoc, linesBeforeEnd, hc, Bool.and_false,
      Bool.false_eq_true, if_false, hclose, hfirst, if_true]
  have hdeeper : ¬ depth + 1 = 0 := by omega
  have hend : linesBeforeEnd keywords (depth + 1) (last :: (ls' ++ rest)) =
      1 + linesBeforeEnd keywords depth (ls' ++ rest) := by
    rw [Says] at hlast
    simp only [linesBeforeEnd, hdeeper, decide_false, Bool.false_and, Bool.false_eq_true, if_false,
      hlast, if_true, Int.add_sub_cancel]
  rw [hstep, hbody, hend, hnext]
  simp only [List.length_cons, List.length_append]
  omega

/-- The lines of a sequence are passed over at any depth. -/
theorem Written.passed (h : Written t ls) (hk : keywords ⊆ branchWords) (hd : 0 ≤ depth) :
    Passed keywords depth ls := by
  induction h generalizing depth with
  | nil => exact fun rest => (Nat.zero_add _).symm
  | line hline hs _ ih => exact (passed_of_simple hk hline hs).append (ih hd)
  | branch hfirst _ hlast _ ihb ih =>
    exact passed_of_block hk hd (hfirst.starts (by decide)) (ihb (by omega)) hlast (ih hd)
  | choice hfirst _ hmiddle _ hlast _ ihb iho ih =>
    -- Inside the block, the word that parts it is not looked for.
    have hparts : Passed keywords (depth + 1) [_] := passed_of_parts (by omega) hmiddle
    have hbody := (ihb (by omega)).append (hparts.append (iho (by omega)))
    have hpassed := passed_of_block hk hd (hfirst.starts (by decide)) hbody hlast (ih hd)
    simpa only [List.append_assoc, List.cons_append, List.nil_append] using hpassed
  | loop hfirst _ hlast _ ihb ih =>
    exact passed_of_block hk hd (hfirst.starts (by decide)) (ihb (by omega)) hlast (ih hd)
  | count hfirst _ hlast _ ihb ih =>
    exact passed_of_block hk hd hfirst.starts (ihb (by omega)) hlast (ih hd)

end Ends

/-! ## Lines of a program -/

/-- The lines stand in a program at an index. -/
def LinesAt (lines : Array String) (i : Nat) (ls : List String) : Prop :=
  ∃ before after, lines.toList = before ++ ls ++ after ∧ before.length = i

namespace LinesAt

variable {lines : Array String} {i : Nat} {raw : String} {ls ls' : List String}

theorem left (h : LinesAt lines i (ls ++ ls')) : LinesAt lines i ls := by
  obtain ⟨before, after, hlines, hi⟩ := h
  exact ⟨before, ls' ++ after, by simp [hlines], hi⟩

theorem right (h : LinesAt lines i (ls ++ ls')) : LinesAt lines (i + ls.length) ls' := by
  obtain ⟨before, after, hlines, hi⟩ := h
  exact ⟨before ++ ls, after, by simp [hlines], by simp [hi]⟩

theorem tail (h : LinesAt lines i (raw :: ls)) : LinesAt lines (i + 1) ls :=
  have h : LinesAt lines i ([raw] ++ ls) := h
  h.right

theorem le_size (h : LinesAt lines i ls) : i + ls.length ≤ lines.size := by
  obtain ⟨before, after, hlines, rfl⟩ := h
  rw [← Array.length_toList, hlines]
  simp

theorem lineAt_eq (h : LinesAt lines i (raw :: ls)) : lineAt lines i = trim raw.toList := by
  obtain ⟨before, after, hlines, rfl⟩ := h
  rw [lineAt, ← Array.getElem?_toList, hlines]
  simp

end LinesAt

/-- The end of a block is the line that says so after lines that are passed over. -/
theorem blockEnd_of_passed {lines : Array String} {i : Nat} {keywords : List String}
    {ls rest : List String} {last word : String} (h : LinesAt lines i (ls ++ last :: rest))
    (hp : Passed keywords 0 ls) (hw : word ∈ keywords) (hs : Says word last) :
    blockEnd lines i keywords = i + ls.length := by
  have hle := h.le_size
  obtain ⟨before, after, hlines, rfl⟩ := h
  have hdrop : lines.toList.drop before.length = ls ++ last :: (rest ++ after) := by simp [hlines]
  rw [blockEnd, if_neg (by simp at hle; omega), hdrop, hp, linesBeforeEnd_of_mem hw hs]
  rfl

/-- The end of a block is the line after its body that says so. -/
theorem blockEnd_of_written {lines : Array String} {i : Nat} {keywords : List String} {t : Tree}
    {ls rest : List String} {last word : String} (h : LinesAt lines i (ls ++ last :: rest))
    (ht : Written t ls) (hk : keywords ⊆ branchWords) (hw : word ∈ keywords) (hs : Says word last) :
    blockEnd lines i keywords = i + ls.length :=
  blockEnd_of_passed h (ht.passed hk (Int.le_refl 0)) hw hs

end Birokrasi.Extended
