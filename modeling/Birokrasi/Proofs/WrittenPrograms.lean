import Birokrasi.Proofs.Cutting
import Birokrasi.Structured.Parser

/-!
# Written programs

How the statements of the structured language are written, one line for each header and terminator
(`writtenAll`), and that reading undoes writing: `ofLines_writtenAll`. What a line says is found by
trying one shape after the other. The shapes start with different letters, except for a call, which
may start with any word; so a written line is taken for what it is, whatever its expressions look
like (`Says`). Blocks are then read back by induction on the statements, with any reader and any lines
after them.
-/

namespace Birokrasi.Structured

open Birokrasi.Text

/-! ## Written programs -/

mutual

/-- The lines that a statement is written in. -/
def Stmt.written : Stmt → List String
  | .block _ body => "mulai" :: (writtenAll body ++ ["akhir"])
  | .attempt _ body recovery =>
    "coba" :: (writtenAll body ++ "jikaGagal" :: (writtenAll recovery ++ ["akhirCoba"]))
  | .meeting _ count body => ("Rapat(" ++ count ++ ")") :: (writtenAll body ++ ["selesaiRapat"])
  | .procedure _ name body =>
    ("prosedur " ++ name ++ "()") :: (writtenAll body ++ ["akhirProsedur"])
  | .call _ name => [name ++ "()"]
  | .assign _ name expr => ["set " ++ name ++ " = " ++ expr]
  | .report _ expr => ["lapor " ++ expr]
  | .embezzle _ percent => ["Korupsi(" ++ percent ++ ")"]
  | .stall _ info => ["Mangkrak(" ++ info ++ ")"]
  | .branch _ condition body _ => ("jika " ++ condition) :: (writtenAll body ++ ["akhir"])
  | .unknown _ => []

/-- The lines that statements are written in, one after the other. -/
def writtenAll : List Stmt → List String
  | [] => []
  | s :: rest => s.written ++ writtenAll rest

end

mutual

/-- A statement that is written from line `n` on. -/
def Stmt.placed (n : Nat) : Stmt → Stmt
  | .block _ body => .block n (placedAll (n + 1) body)
  | .attempt _ body recovery =>
    .attempt n (placedAll (n + 1) body) (placedAll (n + 1 + (writtenAll body).length + 1) recovery)
  | .meeting _ count body => .meeting n count (placedAll (n + 1) body)
  | .procedure _ name body => .procedure n name (placedAll (n + 1) body)
  | .call _ name => .call n name
  | .assign _ name expr => .assign n name expr
  | .report _ expr => .report n expr
  | .embezzle _ percent => .embezzle n percent
  | .stall _ info => .stall n info
  | .branch _ condition body otherwise => .branch n condition (placedAll (n + 1) body) otherwise
  | .unknown _ => .unknown n

/-- Statements that are written from line `n` on, one after the other. -/
def placedAll (n : Nat) : List Stmt → List Stmt
  | [] => []
  | s :: rest => s.placed n :: placedAll (n + s.written.length) rest

end

/-- A name that can be written. -/
structure IsNameText (name : String) : Prop where
  nonempty : name.toList ≠ []
  word : name.toList.all isWord = true

/-- An expression that can be written: it stays on its line, has no comment sign and no blanks at its
ends. -/
structure IsExpressionText (expr : String) : Prop where
  nonempty : expr.toList ≠ []
  oneLine : '\n' ∉ expr.toList
  uncommented : occursIn ['/', '/'] expr.toList = false
  trimmed : trim expr.toList = expr.toList

instance (name : String) : Decidable (IsNameText name) :=
  decidable_of_iff (name.toList ≠ [] ∧ name.toList.all isWord = true)
    ⟨fun ⟨h, h'⟩ => ⟨h, h'⟩, fun ⟨h, h'⟩ => ⟨h, h'⟩⟩

instance (expr : String) : Decidable (IsExpressionText expr) :=
  decidable_of_iff (expr.toList ≠ [] ∧ '\n' ∉ expr.toList ∧ occursIn ['/', '/'] expr.toList = false ∧
      trim expr.toList = expr.toList)
    ⟨fun ⟨h, h₁, h₂, h₃⟩ => ⟨h, h₁, h₂, h₃⟩, fun ⟨h, h₁, h₂, h₃⟩ => ⟨h, h₁, h₂, h₃⟩⟩

/-- The statements that can be written. -/
inductive Stmt.Writable : Stmt → Prop
  | block {line : Nat} {body : List Stmt} :
    (∀ s ∈ body, Writable s) → Writable (.block line body)
  | attempt {line : Nat} {body recovery : List Stmt} :
    (∀ s ∈ body, Writable s) → (∀ s ∈ recovery, Writable s) →
      Writable (.attempt line body recovery)
  | meeting {line : Nat} {count : String} {body : List Stmt} :
    IsExpressionText count → (∀ s ∈ body, Writable s) → Writable (.meeting line count body)
  | procedure {line : Nat} {name : String} {body : List Stmt} :
    IsNameText name → (∀ s ∈ body, Writable s) → Writable (.procedure line name body)
  | call {line : Nat} {name : String} : IsNameText name → Writable (.call line name)
  | assign {line : Nat} {name expr : String} :
    IsNameText name → IsExpressionText expr → Writable (.assign line name expr)
  | report {line : Nat} {expr : String} : IsExpressionText expr → Writable (.report line expr)
  | embezzle {line : Nat} {percent : String} :
    IsExpressionText percent → Writable (.embezzle line percent)
  | stall {line : Nat} {info : String} : IsExpressionText info → Writable (.stall line info)
  | branch {line : Nat} {condition : String} {body : List Stmt} :
    IsExpressionText condition → (∀ s ∈ body, Writable s) →
      Writable (.branch line condition body [])

/-! ## Lines as they are read -/

/-- A text that reading leaves as it is: it has no blanks at its ends and no comment. -/
structure Verbatim (s : String) : Prop where
  nonempty : s.toList ≠ []
  trimmed : trim s.toList = s.toList
  uncommented : cut? ['/', '/'] s.toList = none

/-- A line that says something, whatever block is open: it is no terminator. -/
structure Says (n : Nat) (line : String) (kind : LineKind) : Prop where
  kind : LineKind.ofLine n line = .ok kind
  free : ∀ h : Header, trimString line ≠ h.terminator

section Lines

variable {name expr front back line : String} {n : Nat} {kind : LineKind}

theorem IsExpressionText.verbatim (h : IsExpressionText expr) : Verbatim expr :=
  ⟨h.nonempty, h.trimmed, Option.not_isSome_iff_eq_none.1 (Bool.not_eq_true _ ▸ h.uncommented)⟩

theorem IsNameText.isWord {c : Char} (h : IsNameText name) (hc : c ∈ name.toList) : isWord c = true :=
  List.all_eq_true.1 h.word c hc

theorem IsNameText.slash_notMem (h : IsNameText name) : '/' ∉ name.toList := by
  have hslash : Text.isWord '/' = false := rfl
  intro hmem
  rw [h.isWord hmem] at hslash
  cases hslash

theorem IsNameText.verbatim (h : IsNameText name) : Verbatim name where
  nonempty := h.nonempty
  trimmed := trim_eq_self fun c hc => isBlank_eq_false_of_isWord (h.isWord hc)
  uncommented := cut?_eq_none (c := '/') (by simp) h.slash_notMem

namespace Verbatim

theorem lead (h : Verbatim line) (hf : front.toList ≠ [] ∧ front.toList.head?.any isBlank = false ∧
    '/' ∉ front.toList) : Verbatim (front ++ line) := by
  obtain ⟨hne, hblank, hslash⟩ := hf
  obtain ⟨-, hlast⟩ := trim_eq_self_iff.1 h.trimmed
  constructor <;> rw [String.toList_append]
  · simp [hne]
  · refine trim_eq_self_iff.2 ⟨?_, ?_⟩
    · rwa [List.head?_append, List.head?_eq_some_head hne, Option.some_or,
        ← List.head?_eq_some_head]
    · rwa [List.getLast?_append, List.getLast?_eq_some_getLast h.nonempty, Option.some_or,
        ← List.getLast?_eq_some_getLast]
  · exact cut?_append_of_notMem_left hslash h.uncommented

theorem trail (h : Verbatim line) (hb : back.toList ≠ [] ∧ back.toList.getLast?.any isBlank = false ∧
    '/' ∉ back.toList) : Verbatim (line ++ back) := by
  obtain ⟨hne, hblank, hslash⟩ := hb
  obtain ⟨hhead, -⟩ := trim_eq_self_iff.1 h.trimmed
  constructor <;> rw [String.toList_append]
  · simp [hne]
  · refine trim_eq_self_iff.2 ⟨?_, ?_⟩
    · rwa [List.head?_append, List.head?_eq_some_head h.nonempty, Option.some_or,
        ← List.head?_eq_some_head]
    · rwa [List.getLast?_append, List.getLast?_eq_some_getLast hne, Option.some_or,
        ← List.getLast?_eq_some_getLast]
  · exact cut?_append_of_notMem_right (n := 1) hslash h.uncommented

theorem eq_uncommented (h : Verbatim line) : Structured.uncommented line = line.toList := by
  rw [Structured.uncommented, h.trimmed]
  simp only [h.uncommented]

end Verbatim

theorem letters_terminator (h : Header) : h.terminator.toList.all isLetter = true := by
  cases h <;> simp only [Header.terminator] <;> decide

/-- Terminators have letters only, so a line with anything else is none. -/
theorem Says.of_verbatim {c : Char} (hv : Verbatim line) (hc : c ∈ line.toList)
    (hl : isLetter c = false) (hk : LineKind.ofLine n line = .ok kind) : Says n line kind := by
  refine ⟨hk, fun h heq => ?_⟩
  rw [trimString, hv.trimmed, String.ofList_toList] at heq
  rw [heq] at hc
  rw [List.all_eq_true.1 (letters_terminator h) c hc] at hl
  cases hl

/-! ### Shapes -/

theorem IsExpressionText.trimStart_eq (h : IsExpressionText expr) :
    trimStart expr.toList = expr.toList :=
  trimStart_eq_self (trim_eq_self_iff.1 h.trimmed).1

theorem IsNameText.trimStart_append {rest : List Char} (h : IsNameText name) :
    trimStart (name.toList ++ rest) = name.toList ++ rest := by
  refine trimStart_eq_self ?_
  have hhead := (trim_eq_self_iff.1 h.verbatim.trimmed).1
  rwa [List.head?_append, List.head?_eq_some_head h.nonempty, Option.some_or,
    ← List.head?_eq_some_head]

theorem IsExpressionText.oneLine?_eq (h : IsExpressionText expr) :
    oneLine? expr.toList = some expr := by
  simp [oneLine?, h.nonempty, h.oneLine]

theorem word?_append {c : Char} {rest : List Char} (h : IsNameText name) (hc : isWord c = false) :
    word? (name.toList ++ c :: rest) = some (name, c :: rest) := by
  have htake : (name.toList ++ c :: rest).takeWhile isWord = name.toList := by
    rw [List.takeWhile_append_of_pos fun _ => h.isWord, List.takeWhile_cons_of_neg (by simp [hc]),
      List.append_nil]
  have hdrop : (name.toList ++ c :: rest).dropWhile isWord = c :: rest := by
    rw [List.dropWhile_append_of_pos fun _ => h.isWord, List.dropWhile_cons_of_neg (by simp [hc])]
  rw [word?, htake, hdrop]
  cases hn : name.toList with
  | nil => exact absurd hn h.nonempty
  | cons x t => simp [← hn]

theorem word?_call (h : IsNameText name) :
    word? (name.toList ++ ['(', ')']) = some (name, ['(', ')']) :=
  word?_append h rfl

theorem afterKeyword?_append {s : List Char} (keyword : String) (h : trimStart s = s) :
    afterKeyword? keyword (keyword.toList ++ ' ' :: s) = some s := by
  rw [afterKeyword?, after?_append, Option.bind_eq_bind, Option.bind_some]
  exact congrArg some h

theorem argument?_append (keyword : String) (h : IsExpressionText expr) :
    argument? keyword (keyword.toList ++ ' ' :: expr.toList) = some expr := by
  rw [argument?, afterKeyword?_append keyword h.trimStart_eq]
  exact h.oneLine?_eq

theorem enclosed?_append (opening : String) (h : IsExpressionText expr) :
    enclosed? opening (opening.toList ++ (expr.toList ++ [')'])) = some expr := by
  rw [enclosed?, after?_append, Option.bind_eq_bind, Option.bind_some]
  simp [h.oneLine?_eq]

/-- A call is not taken for a meeting, even if it has the name of one: there is nothing between the
parentheses. -/
theorem enclosed?_call (h : IsNameText name) :
    enclosed? "Rapat(" (name.toList ++ ['(', ')']) = none := by
  rw [enclosed?]
  cases hafter : after? "Rapat(".toList (name.toList ++ ['(', ')']) with
  | none => rfl
  | some inner =>
    have hname := word?_call h
    have hword : word? ("Rapat(".toList ++ inner) = some ("Rapat", '(' :: inner) := rfl
    rw [eq_append_of_after? hafter, hword, Option.some.injEq, Prod.mk.injEq, List.cons.injEq] at hname
    obtain ⟨-, -, rfl⟩ := hname
    rfl

/-- A call is not taken for the header of a procedure: no blank follows its first word. -/
theorem procedureName?_call (h : IsNameText name) :
    procedureName? (name.toList ++ ['(', ')']) = none := by
  rw [procedureName?, afterKeyword?]
  cases hafter : after? "prosedur".toList (name.toList ++ ['(', ')']) with
  | none => rfl
  | some rest =>
    cases rest with
    | nil => rfl
    | cons c rest =>
      have hblank : isBlank c = false := by
        rw [Bool.eq_false_iff]
        intro hb
        have hname := word?_call h
        have hkeyword : IsNameText "prosedur" := by decide
        rw [eq_append_of_after? hafter, word?_append hkeyword (isWord_eq_false_of_isBlank hb),
          Option.some.injEq, Prod.mk.injEq, List.cons.injEq] at hname
        obtain ⟨-, rfl, -⟩ := hname
        cases hb
      simp [hblank]

theorem callName?_call (h : IsNameText name) :
    callName? (name.toList ++ ['(', ')']) = some name := by
  rw [callName?, word?_call h]
  rfl

/-- A word before an expression in parentheses is no call. -/
theorem callName?_enclosed {s : List Char} (h : IsExpressionText expr)
    (hs : word? s = some (name, '(' :: (expr.toList ++ [')']))) : callName? s = none := by
  have hne : ¬ '(' :: (expr.toList ++ [')']) = ['(', ')'] := by simp [h.nonempty]
  rw [callName?, hs, Option.bind_eq_bind, Option.bind_some]
  exact if_neg hne

theorem procedureName?_append (h : IsNameText name) :
    procedureName? ("prosedur".toList ++ ' ' :: (name.toList ++ ['(', ')'])) = some name := by
  rw [procedureName?, afterKeyword?_append _ h.trimStart_append, Option.bind_eq_bind,
    Option.bind_some, word?_call h]
  rfl

theorem assignment?_append (hn : IsNameText name) (h : IsExpressionText expr) :
    assignment? ("set".toList ++ ' ' :: (name.toList ++ ' ' :: '=' :: ' ' :: expr.toList)) =
      some (name, expr) := by
  rw [assignment?, afterKeyword?_append _ hn.trimStart_append, Option.bind_eq_bind,
    Option.bind_some, word?_append hn rfl]
  show (do return (name, ← oneLine? (trimStart expr.toList))) = some (name, expr)
  rw [h.trimStart_eq, h.oneLine?_eq]
  rfl

/-! ### Statements -/

theorem says_block : Says n "mulai" (.opening (.block n)) :=
  ⟨rfl, fun h => by cases h <;> simp only [Header.terminator] <;> decide⟩

theorem says_attempt : Says n "coba" (.opening (.attempt n)) :=
  ⟨rfl, fun h => by cases h <;> simp only [Header.terminator] <;> decide⟩

/-- A line that is an expression in parentheses after a word. -/
theorem Says.of_enclosed {opening : String} (h : IsExpressionText expr)
    (hopening : opening.toList.head?.any isBlank = false ∧ '/' ∉ opening.toList ∧ '(' ∈ opening.toList)
    (hk : uncommented (opening ++ expr ++ ")") = opening.toList ++ (expr.toList ++ [')']) →
      LineKind.ofLine n (opening ++ expr ++ ")") = .ok kind) :
    Says n (opening ++ expr ++ ")") kind := by
  obtain ⟨hblank, hslash, hparen⟩ := hopening
  have hlead : Verbatim (opening ++ expr) :=
    h.verbatim.lead ⟨List.ne_nil_of_mem hparen, hblank, hslash⟩
  have hv : Verbatim (opening ++ expr ++ ")") := hlead.trail (by decide)
  refine .of_verbatim (c := '(') hv (by simp [hparen]) (by decide) (hk ?_)
  rw [hv.eq_uncommented, String.toList_append, String.toList_append, List.append_assoc]
  rfl

theorem says_meeting (h : IsExpressionText expr) :
    Says n ("Rapat(" ++ expr ++ ")") (.opening (.meeting n expr)) := by
  refine .of_enclosed h (by decide) fun hline => ?_
  rw [LineKind.ofLine, hline]
  simp only [enclosed?_append _ h]
  rfl

theorem says_procedure (h : IsNameText name) :
    Says n ("prosedur " ++ name ++ "()") (.opening (.procedure n name)) := by
  have hv : Verbatim ("prosedur " ++ name ++ "()") :=
    (h.verbatim.lead (by decide)).trail (by decide)
  have hname : procedureName? ("prosedur ".toList ++ (name.toList ++ "()".toList)) = some name :=
    procedureName?_append h
  refine .of_verbatim (c := '(') hv (by simp) (by decide) ?_
  rw [LineKind.ofLine, hv.eq_uncommented, String.toList_append, String.toList_append,
    List.append_assoc]
  simp only [hname]
  rfl

theorem says_call (h : IsNameText name) : Says n (name ++ "()") (.simple (.call n name)) := by
  have hv : Verbatim (name ++ "()") := h.verbatim.trail (by decide)
  have hne (word : String) (hw : '(' ∉ word.toList) : name.toList ++ ['(', ')'] ≠ word.toList :=
    fun heq => hw (heq ▸ by simp)
  refine .of_verbatim (c := '(') hv (by simp) (by decide) ?_
  rw [LineKind.ofLine, hv.eq_uncommented, String.toList_append,
    show "()".toList = ['(', ')'] from rfl, if_neg (by simp), if_neg (hne "mulai" (by decide)),
    if_neg (hne "coba" (by decide)), enclosed?_call h, procedureName?_call h, callName?_call h]

theorem says_assign (hn : IsNameText name) (h : IsExpressionText expr) :
    Says n ("set " ++ name ++ " = " ++ expr) (.simple (.assign n name expr)) := by
  have hslash : '/' ∉ ("set " ++ name ++ " = ").toList := by simp [hn.slash_notMem]
  have hv : Verbatim ("set " ++ name ++ " = " ++ expr) :=
    h.verbatim.lead ⟨by simp, by simp; rfl, hslash⟩
  have hset : assignment? ("set ".toList ++ (name.toList ++ (" = ".toList ++ expr.toList))) =
      some (name, expr) := assignment?_append hn h
  refine .of_verbatim (c := ' ') hv (by simp) (by decide) ?_
  rw [LineKind.ofLine, hv.eq_uncommented, String.toList_append, String.toList_append,
    String.toList_append, List.append_assoc, List.append_assoc]
  simp only [hset]
  rfl

theorem says_report (h : IsExpressionText expr) :
    Says n ("lapor " ++ expr) (.simple (.report n expr)) := by
  have hv : Verbatim ("lapor " ++ expr) := h.verbatim.lead (by decide)
  have hargument : argument? "lapor" ("lapor ".toList ++ expr.toList) = some expr :=
    argument?_append _ h
  refine .of_verbatim (c := ' ') hv (by simp) (by decide) ?_
  rw [LineKind.ofLine, hv.eq_uncommented, String.toList_append]
  simp only [hargument]
  rfl

theorem says_embezzle (h : IsExpressionText expr) :
    Says n ("Korupsi(" ++ expr ++ ")") (.simple (.embezzle n expr)) := by
  have hcall : callName? ("Korupsi(".toList ++ (expr.toList ++ [')'])) = none :=
    callName?_enclosed h rfl
  refine .of_enclosed h (by decide) fun hline => ?_
  rw [LineKind.ofLine, hline]
  simp only [enclosed?_append _ h, hcall]
  rfl

theorem says_stall (h : IsExpressionText expr) :
    Says n ("Mangkrak(" ++ expr ++ ")") (.simple (.stall n expr)) := by
  have hcall : callName? ("Mangkrak(".toList ++ (expr.toList ++ [')'])) = none :=
    callName?_enclosed h rfl
  refine .of_enclosed h (by decide) fun hline => ?_
  rw [LineKind.ofLine, hline]
  simp only [enclosed?_append _ h, hcall]
  rfl

theorem says_branch (h : IsExpressionText expr) :
    Says n ("jika " ++ expr) (.opening (.branch n expr)) := by
  have hv : Verbatim ("jika " ++ expr) := h.verbatim.lead (by decide)
  have hargument : argument? "jika" ("jika ".toList ++ expr.toList) = some expr :=
    argument?_append _ h
  refine .of_verbatim (c := ' ') hv (by simp) (by decide) ?_
  rw [LineKind.ofLine, hv.eq_uncommented, String.toList_append]
  simp only [hargument]
  rfl

end Lines

/-! ## Reading back -/

namespace Reader

variable {r : Reader} {n : Nat} {line : String} {header : Header} {stmt : Stmt} {rest : List String}
  {body recovery : List Stmt}

theorem isTerminator_eq_false (h : ∀ h : Header, trimString line ≠ h.terminator) :
    r.isTerminator line = false := by
  rw [isTerminator]
  split
  · rfl
  · exact beq_eq_false_iff_ne.2 (h _)

theorem feedAll_opening (h : Says n line (.opening header)) :
    r.feedAll n (line :: rest) = (r.enter header).feedAll (n + 1) rest := by
  rw [feedAll, feed, isTerminator_eq_false h.free, h.kind]
  rfl

theorem feedAll_simple (h : Says n line (.simple stmt)) :
    r.feedAll n (line :: rest) = (r.add stmt).feedAll (n + 1) rest := by
  rw [feedAll, feed, isTerminator_eq_false h.free, h.kind]
  rfl

theorem feedAll_terminator {outside : List Stmt} {pending : List (Header × List Stmt)}
    (h : r.pending = (header, outside) :: pending) :
    r.feedAll n (header.terminator :: rest) = r.leave.feedAll (n + 1) rest := by
  have htrim : trim header.terminator.toList = header.terminator.toList := by
    cases header <;> simp only [Header.terminator] <;> decide
  have hends : r.isTerminator header.terminator = true := by
    simp [isTerminator, h, trimString, htrim]
  rw [feedAll, feed, hends]
  rfl

/-- Adds statements to the current level, one after the other. -/
def addAll (r : Reader) (stmts : List Stmt) : Reader :=
  { r with current := stmts.reverse ++ r.current }

theorem leave_eq_add (h : ∀ n, header ≠ .attempt n) (r : Reader) (stmts : List Stmt) :
    ((r.enter header).addAll stmts).leave = r.add (header.close stmts) := by
  cases header with
  | attempt n => exact absurd rfl (h n)
  | _ => simp [leave, enter, addAll, add]

theorem leave_attempt (r : Reader) (stmts : List Stmt) :
    ((r.enter (.attempt n)).addAll stmts).leave = r.enter (.recovery n stmts) := by
  simp [leave, enter, addAll]

/-- A statement that is read back from its lines, whatever is open before them and whatever follows
them. -/
def ReadsBack (s : Stmt) : Prop :=
  ∀ (r : Reader) (n : Nat) (rest : List String),
    r.feedAll n (s.written ++ rest) = (r.add (s.placed n)).feedAll (n + s.written.length) rest

theorem feedAll_writtenAll (h : ∀ s ∈ body, ReadsBack s) (r : Reader) (n : Nat)
    (rest : List String) :
    r.feedAll n (writtenAll body ++ rest) =
      (r.addAll (placedAll n body)).feedAll (n + (writtenAll body).length) rest := by
  induction body generalizing r n with
  | nil => rfl
  | cons s body ih =>
    rw [writtenAll, List.append_assoc, h s List.mem_cons_self,
      ih fun t ht => h t (List.mem_cons_of_mem s ht), List.length_append, Nat.add_assoc, placedAll]
    simp [addAll, add]

theorem feedAll_body (h : ∀ s ∈ body, ReadsBack s) (r : Reader) (header : Header) (n : Nat)
    (rest : List String) :
    (r.enter header).feedAll n (writtenAll body ++ header.terminator :: rest) =
      ((r.enter header).addAll (placedAll n body)).leave.feedAll
        (n + (writtenAll body).length + 1) rest := by
  rw [feedAll_writtenAll h, feedAll_terminator rfl]

/-- A block with one body is read back if its body is. -/
theorem feedAll_block (hs : Says n line (.opening header)) (hone : ∀ n, header ≠ .attempt n)
    (h : ∀ s ∈ body, ReadsBack s) (r : Reader) (rest : List String) :
    r.feedAll n (line :: (writtenAll body ++ [header.terminator]) ++ rest) =
      (r.add (header.close (placedAll (n + 1) body))).feedAll
        (n + (line :: (writtenAll body ++ [header.terminator])).length) rest := by
  rw [List.cons_append, List.append_assoc, List.singleton_append, feedAll_opening hs,
    feedAll_body h, leave_eq_add hone, List.length_cons, List.length_append, List.length_singleton]
  congr 1
  omega

/-- An attempt is read back if both of its bodies are: the first one ends where the second begins. -/
theorem feedAll_attempt (h : ∀ s ∈ body, ReadsBack s) (h' : ∀ s ∈ recovery, ReadsBack s)
    (r : Reader) (n : Nat) (rest : List String) :
    r.feedAll n ("coba" :: (writtenAll body ++ "jikaGagal" ::
        (writtenAll recovery ++ ["akhirCoba"])) ++ rest) =
      (r.add (.attempt n (placedAll (n + 1) body)
        (placedAll (n + 1 + (writtenAll body).length + 1) recovery))).feedAll
        (n + ("coba" :: (writtenAll body ++ "jikaGagal" ::
          (writtenAll recovery ++ ["akhirCoba"]))).length) rest := by
  let first := placedAll (n + 1) body
  have hone (k : Nat) : Header.recovery n first ≠ .attempt k := nofun
  rw [List.cons_append, List.append_assoc, List.cons_append, List.append_assoc,
    List.singleton_append, feedAll_opening says_attempt]
  refine (feedAll_body h r (.attempt n) _ _).trans ?_
  rw [leave_attempt]
  refine (feedAll_body h' r (.recovery n first) _ _).trans ?_
  rw [leave_eq_add hone, Header.close]
  congr 1
  simp only [List.length_cons, List.length_append, List.length_nil]
  omega

theorem readsBack_of_writable (h : stmt.Writable) : ReadsBack stmt := by
  induction h with
  | block _ ih =>
    intro r n rest
    rw [Stmt.written, Stmt.placed]
    exact feedAll_block says_block (fun _ => nofun) ih r rest
  | attempt _ _ ih ih' =>
    intro r n rest
    rw [Stmt.written, Stmt.placed]
    exact feedAll_attempt ih ih' r n rest
  | meeting he _ ih =>
    intro r n rest
    rw [Stmt.written, Stmt.placed]
    exact feedAll_block (says_meeting he) (fun _ => nofun) ih r rest
  | procedure hn _ ih =>
    intro r n rest
    rw [Stmt.written, Stmt.placed]
    exact feedAll_block (says_procedure hn) (fun _ => nofun) ih r rest
  | branch he _ ih =>
    intro r n rest
    rw [Stmt.written, Stmt.placed]
    exact feedAll_block (says_branch he) (fun _ => nofun) ih r rest
  | call hn => exact fun r n rest => feedAll_simple (says_call hn)
  | assign hn he => exact fun r n rest => feedAll_simple (says_assign hn he)
  | report he => exact fun r n rest => feedAll_simple (says_report he)
  | embezzle he => exact fun r n rest => feedAll_simple (says_embezzle he)
  | stall he => exact fun r n rest => feedAll_simple (says_stall he)

end Reader

/-- Reading undoes writing: the lines of statements are read as these statements, in their order, each
with the number of the line that it starts on. -/
theorem ofLines_writtenAll (stmts : List Stmt) (h : ∀ s ∈ stmts, s.Writable) :
    Program.ofLines (writtenAll stmts) = .ok ⟨placedAll 1 stmts⟩ := by
  have hread := Reader.feedAll_writtenAll (fun s hs => Reader.readsBack_of_writable (h s hs)) {} 1 []
  rw [List.append_nil] at hread
  rw [Program.ofLines, hread]
  simp [Reader.feedAll, Reader.finish, Reader.closeAll, Reader.addAll]

/-- Every kind of statement, with a procedure that is called like a keyword, and expressions that look
like other lines. -/
def tangled : List Stmt :=
  [.procedure 1 "Rapat" [.report 2 "set x = 1"],
    .attempt 4 [.block 5 [.meeting 6 "n() + (2)" [.branch 7 "a == b" [.call 8 "Rapat"] []]]]
      [.assign 13 "jika" "= mulai", .stall 14 "akhir"],
    .embezzle 16 "5 / 2)"]

theorem writable_tangled : ∀ s ∈ tangled, s.Writable := by
  have hbranch : (Stmt.branch 7 "a == b" [.call 8 "Rapat"] []).Writable :=
    .branch (by decide) (List.forall_mem_singleton.2 (.call (by decide)))
  have hblock : (Stmt.block 5 [.meeting 6 "n() + (2)" [.branch 7 "a == b" [.call 8 "Rapat"] []]]).Writable :=
    .block (List.forall_mem_singleton.2
      (.meeting (by decide) (List.forall_mem_singleton.2 hbranch)))
  simp only [tangled, List.forall_mem_cons]
  refine ⟨.procedure (by decide) ?_, .attempt (List.forall_mem_singleton.2 hblock) ?_,
    .embezzle (by decide), nofun⟩
  · exact List.forall_mem_singleton.2 (.report (by decide))
  · simp only [List.forall_mem_cons]
    exact ⟨.assign (by decide) (by decide), .stall (by decide), nofun⟩

theorem ofLines_writtenAll_tangled :
    (∀ s ∈ tangled, s.Writable) ∧
    Program.ofLines
      ["prosedur Rapat()", "lapor set x = 1", "akhirProsedur", "coba", "mulai", "Rapat(n() + (2))",
        "jika a == b", "Rapat()", "akhir", "selesaiRapat", "akhir", "jikaGagal", "set jika = = mulai",
        "Mangkrak(akhir)", "akhirCoba", "Korupsi(5 / 2))"] = .ok ⟨tangled⟩ :=
  ⟨writable_tangled, ofLines_writtenAll tangled writable_tangled⟩

end Birokrasi.Structured
