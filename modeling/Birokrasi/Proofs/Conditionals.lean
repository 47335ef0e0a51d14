import Birokrasi.Proofs.NestedLines

/-!
# Conditionals

A conditional with any number of branches, as it is written (`Conditional`), and what it should do: of its
branches, execute the first one whose condition holds (`Conditional.firstTrue`). The end of a branch is
sought as a line that is one of three words, so that the header of another branch, which has a condition
behind its word, is not found. The lines of all branches are one body, that of the first condition, and the
other conditions are never evaluated (`conditional_decides_once`). Where there is no other branch, the
first true one is executed.
-/

namespace Birokrasi.Extended

open Birokrasi.Text
open Birokrasi.Extended.Tree (inTurn runLine)

/-- A branch of a conditional, whose header has a word in front of its condition. -/
structure Arm (word : String) where
  header : String
  condition : List Char
  body : List String
  opens : Opens word condition header
  nested : Nested false body

/-- The lines of a branch. -/
def Arm.lines {word : String} (a : Arm word) : List String := a.header :: a.body

/-- The branch without a condition. -/
structure Fallback where
  header : String
  body : List String
  parts : Says "atau" header
  nested : Nested false body

/-- A conditional. -/
structure Conditional where
  first : Arm "jika "
  others : List (Arm "ataujika ")
  otherwise : Option Fallback
  last : String
  closes : Says closingWord last

namespace Conditional

/-- The lines of the branches with conditions, without the header of the first. -/
def armLines (c : Conditional) : List String := c.first.body ++ c.others.flatMap Arm.lines

/-- The lines of the branch without a condition. -/
def fallbackLines (c : Conditional) : List String :=
  match c.otherwise with
  | none => []
  | some f => f.header :: f.body

/-- The lines of a conditional. -/
def lines (c : Conditional) : List String :=
  c.first.header :: (c.armLines ++ (c.fallbackLines ++ [c.last]))

/-- Executes the branch without a condition, which is at a line, if there is one. -/
def runFallback (c : Conditional) (call : Caller) (lines : Array String) (i : Nat) : Run Unit :=
  match c.otherwise with
  | none => pure ()
  | some f => executeBlock call lines (i + 1) (i + 1 + f.body.length)

end Conditional

/-- Executes the first of some branches whose condition holds, of which the first is at a line; if there
is none, what `fallback` says for the line after them. -/
def firstTrue (call : Caller) (lines : Array String) (fallback : Nat → Run Unit) :
    List (Arm "ataujika ") → (i : Nat) → Run Unit
  | [], i => fallback i
  | a :: rest, i => do
    if (← holds call a.condition) then executeBlock call lines (i + 1) (i + 1 + a.body.length)
    else firstTrue call lines fallback rest (i + 1 + a.body.length)

/-- Executes the first branch of a conditional at a line whose condition holds. -/
def Conditional.firstTrue (c : Conditional) (call : Caller) (lines : Array String) (i : Nat) :
    Run Unit := do
  if (← holds call c.first.condition) then
    executeBlock call lines (i + 1) (i + 1 + c.first.body.length)
  else Extended.firstTrue call lines (c.runFallback call lines) c.others (i + 1 + c.first.body.length)

/-- Executes branches as statements: the headers, too. -/
def asStatements (call : Caller) (lines : Array String) : List (Arm "ataujika ") → (i : Nat) → Run Unit
  | [], _ => pure ()
  | a :: rest, i =>
    inTurn (executeNumbered call (i + 1) (trim a.header.toList)) do
      executeBlock call lines (i + 1) (i + 1 + a.body.length)
      asStatements call lines rest (i + 1 + a.body.length)

section Branches

variable {call : Caller} {lines : Array String} {i stop : Nat} {c : Conditional}

theorem passed_others {keywords : List String} (hk : keywords ⊆ branchWords)
    (others : List (Arm "ataujika ")) : Passed keywords 0 (others.flatMap Arm.lines) := by
  induction others with
  | nil => exact fun rest => (Nat.zero_add _).symm
  | cons a rest ih =>
    have hheader : Passed keywords 0 [a.header] := passed_of_otherBranch hk a.opens
    have hbody : Passed keywords 0 a.body := a.nested.passed hk (Int.le_refl 0) nofun
    exact (hheader.append hbody).append ih

/-- The headers of other branches do not end the first one. -/
theorem passed_armLines {keywords : List String} (hk : keywords ⊆ branchWords) (c : Conditional) :
    Passed keywords 0 c.armLines :=
  (c.first.nested.passed hk (Int.le_refl 0) nofun).append (passed_others hk c.others)

/-- The header of another branch is executed as any other line. -/
theorem executeBlock_of_otherBranch {condition : List Char} {raw : String} {ls : List String}
    (hat : LinesAt lines i (raw :: ls)) (h : Opens "ataujika " condition raw) (hs : i < stop) :
    executeBlock call lines i stop =
      inTurn (executeNumbered call (i + 1) (trim raw.toList)) (executeBlock call lines (i + 1) stop) := by
  have hstart : startsWithAny blockWords (trim raw.toList) = false := Parts.not_starts (.inr ⟨_, h⟩)
  rw [executeBlock_of_lt hat.lt_size hs, nextLine_of_not_starts (by rw [hat.lineAt_eq, hstart])]
  obtain ⟨text, hline, -⟩ := h
  unfold statementAt
  rw [hat.lineAt_eq, hline]
  rfl

theorem add_length_arms (i : Nat) (a : Arm "ataujika ") (rest : List (Arm "ataujika ")) :
    i + ((a :: rest).flatMap Arm.lines).length =
      i + 1 + a.body.length + (rest.flatMap Arm.lines).length := by
  simp only [List.flatMap_cons, Arm.lines, List.length_append, List.length_cons]
  omega

theorem executeBlock_others {others : List (Arm "ataujika ")}
    (hat : LinesAt lines i (others.flatMap Arm.lines)) :
    executeBlock call lines i (i + (others.flatMap Arm.lines).length) =
      asStatements call lines others i := by
  induction others generalizing i with
  | nil => exact executeBlock_of_le (Nat.le_refl _)
  | cons a rest ih =>
    have hat : LinesAt lines i (a.header :: (a.body ++ rest.flatMap Arm.lines)) := hat
    rw [add_length_arms, executeBlock_of_otherBranch hat a.opens (by omega),
      executeBlock_of_nested a.nested hat.tail.left (by omega), ih hat.tail.right]
    rfl

theorem blockEnd_fallback {f : Fallback} {last : String} (hat : LinesAt lines i (f.body ++ [last]))
    (h : Says closingWord last) : blockEnd lines i [closingWord] = i + f.body.length :=
  blockEnd_of_passed hat (f.nested.passed (by decide) (Int.le_refl 0) nofun)
    (List.mem_singleton_self closingWord) h

/-- After the branches with conditions, only the one without a condition may be executed. -/
theorem executeBranch_fallback (hat : LinesAt lines i (c.fallbackLines ++ [c.last])) (done : Bool) :
    executeBranch call lines i done = if done then pure () else c.runFallback call lines i := by
  unfold Conditional.fallbackLines at hat
  unfold Conditional.runFallback
  cases hotherwise : c.otherwise with
  | none =>
    rw [hotherwise] at hat
    rw [executeBranch_of_closes hat.lt_size (hat.lineAt_of_says c.closes), ite_self]
  | some f =>
    rw [hotherwise] at hat
    have hlast := hat.tail.right
    rw [executeBranch_of_parts hat.lt_size (hat.lineAt_of_says f.parts),
      blockEnd_fallback hat.tail c.closes,
      executeBranch_of_closes hlast.lt_size (hlast.lineAt_of_says c.closes)]
    cases done with
    | true => rfl
    | false => simp only [Bool.not_false, if_true, Bool.false_eq_true, if_false, bind_pure_unit]

theorem conditionalEnd_fallback (hat : LinesAt lines i (c.fallbackLines ++ [c.last])) :
    conditionalEnd lines i = i + (c.fallbackLines ++ [c.last]).length := by
  unfold Conditional.fallbackLines at hat ⊢
  cases hotherwise : c.otherwise with
  | none =>
    rw [hotherwise] at hat
    exact conditionalEnd_of_closes hat.lt_size (hat.lineAt_of_says c.closes)
  | some f =>
    rw [hotherwise] at hat
    have hlast := hat.tail.right
    rw [conditionalEnd_of_parts hat.lt_size (hat.lineAt_of_says f.parts),
      blockEnd_fallback hat.tail c.closes,
      conditionalEnd_of_closes hlast.lt_size (hlast.lineAt_of_says c.closes)]
    simp only [List.cons_append, List.length_cons, List.length_append, List.length_nil]
    omega

theorem exists_fallback_head (c : Conditional) :
    ∃ head rest, c.fallbackLines ++ [c.last] = head :: rest ∧ ∃ word ∈ branchWords, Says word head := by
  unfold Conditional.fallbackLines
  cases c.otherwise with
  | none => exact ⟨c.last, [], rfl, closingWord, by decide, c.closes⟩
  | some f => exact ⟨f.header, f.body ++ [c.last], rfl, "atau", by decide, f.parts⟩

/-- The body of the first condition goes on to the branch without a condition, or to the end. -/
theorem blockEnd_armLines (hat : LinesAt lines i (c.armLines ++ (c.fallbackLines ++ [c.last]))) :
    blockEnd lines i branchWords = i + c.armLines.length := by
  obtain ⟨head, rest, heq, word, hw, hs⟩ := exists_fallback_head c
  rw [heq] at hat
  exact blockEnd_of_passed hat (passed_armLines (List.Subset.refl _) c) hw hs

theorem conditionalEnd_eq (hat : LinesAt lines i c.lines) :
    conditionalEnd lines i = i + c.lines.length := by
  obtain ⟨text, hline, -⟩ := c.first.opens
  rw [conditionalEnd_of_condition hat.lt_size (hat.lineAt_eq.trans hline), blockEnd_armLines hat.tail,
    conditionalEnd_fallback hat.tail.right]
  simp only [Conditional.lines, List.length_cons, List.length_append]
  omega

theorem executeBranch_eq (hat : LinesAt lines i c.lines) :
    executeBranch call lines i false = (do
      if (← holds call c.first.condition) then
        executeBlock call lines (i + 1) (i + 1 + c.first.body.length)
        asStatements call lines c.others (i + 1 + c.first.body.length)
      else c.runFallback call lines (i + 1 + c.armLines.length)) := by
  obtain ⟨text, hline, htext⟩ := c.first.opens
  have hbody : executeBlock call lines (i + 1) (i + 1 + c.armLines.length) = (do
      executeBlock call lines (i + 1) (i + 1 + c.first.body.length)
      asStatements call lines c.others (i + 1 + c.first.body.length)) := by
    have harms : LinesAt lines (i + 1) (c.first.body ++ c.others.flatMap Arm.lines) := hat.tail.left
    rw [← executeBlock_others harms.right, Conditional.armLines, List.length_append, ← Nat.add_assoc]
    exact executeBlock_of_nested c.first.nested harms.left (by omega)
  rw [executeBranch_of_condition hat.lt_size (hat.lineAt_eq.trans hline), blockEnd_armLines hat.tail,
    htext, hbody]
  congr 1
  funext chosen
  rw [executeBranch_fallback hat.tail.right]
  cases chosen with
  | true => simp only [if_true, bind_pure_unit]
  | false => simp only [Bool.false_eq_true, if_false]

/-! ## Where the first true branch is executed -/

theorem firstTrue_of_all_false {s : State} {fallback : Nat → Run Unit} {others : List (Arm "ataujika ")}
    (h : ∀ a ∈ others, Answers call s a.condition false) :
    (firstTrue call lines fallback others i).run.run s =
      (fallback (i + (others.flatMap Arm.lines).length)).run.run s := by
  induction others generalizing i with
  | nil => rfl
  | cons a rest ih =>
    rw [firstTrue, run_bind_of_ok _ (h a List.mem_cons_self), add_length_arms]
    exact ih fun a' ha => h a' (List.mem_cons_of_mem a ha)

theorem asStatements_of_leaving {s : State} (h : s.leaving = true) (others : List (Arm "ataujika ")) :
    (asStatements call lines others i).run.run s = (.ok (), s) := by
  cases others with
  | nil => rfl
  | cons a rest =>
    rw [asStatements, inTurn, run_get_bind, h]
    rfl

theorem executeBranch_of_no_others (hat : LinesAt lines i c.lines) (h : c.others = []) :
    executeBranch call lines i false = c.firstTrue call lines i := by
  rw [executeBranch_eq hat, Conditional.firstTrue, Conditional.armLines, h]
  simp only [asStatements, firstTrue, bind_pure_unit, List.flatMap_nil, List.append_nil]

/-- No condition holds. -/
theorem executeBranch_of_all_false {s : State} (hat : LinesAt lines i c.lines)
    (hfirst : Answers call s c.first.condition false)
    (h : ∀ a ∈ c.others, Answers call s a.condition false) :
    (executeBranch call lines i false).run.run s = (c.firstTrue call lines i).run.run s := by
  have hlength : i + 1 + c.armLines.length =
      i + 1 + c.first.body.length + (c.others.flatMap Arm.lines).length := by
    rw [Conditional.armLines, List.length_append]
    omega
  rw [executeBranch_eq hat, Conditional.firstTrue, run_bind_of_ok _ hfirst, run_bind_of_ok _ hfirst,
    if_neg Bool.false_ne_true, if_neg Bool.false_ne_true, firstTrue_of_all_false h, hlength]

/-- The first condition holds, and its body fails or is being left at its end. -/
theorem executeBranch_of_left {s t : State} {r : Except Failure Unit} (hat : LinesAt lines i c.lines)
    (hfirst : Answers call s c.first.condition true)
    (hbody : (executeBlock call lines (i + 1) (i + 1 + c.first.body.length)).run.run s = (r, t))
    (h : r = .ok () → t.leaving = true) :
    (executeBranch call lines i false).run.run s = (c.firstTrue call lines i).run.run s := by
  rw [executeBranch_eq hat, Conditional.firstTrue, run_bind_of_ok _ hfirst, run_bind_of_ok _ hfirst,
    if_pos rfl, if_pos rfl, hbody]
  cases r with
  | error e => rw [run_bind_of_error _ hbody]
  | ok u => rw [run_bind_of_ok _ hbody, asStatements_of_leaving (h rfl)]

/-! ## Where it is not -/

theorem lineCall?_of_word? {line name rest : List Char} (h : word? line = some (name, rest)) :
    lineCall? line = (after? ['('] (trimStart rest)).map (name, ·) := by
  unfold lineCall?
  rw [h]
  show (after? ['('] (trimStart rest)).bind (fun args => some (name, args)) = _
  cases after? ['('] (trimStart rest) with
  | none => rfl
  | some args => rfl

/-- The header of another branch is no call, unless the program has a function of that name. -/
theorem executeCall_of_otherBranch {s : State} (call : Caller) (rest : List Char)
    (hf : s.functions.has "ataujika" = false) :
    (executeCall call ("ataujika ".toList ++ rest)).run.run s = (.ok false, s) := by
  have hword : word? ("ataujika ".toList ++ rest) = some ("ataujika".toList, ' ' :: rest) := rfl
  unfold executeCall
  rw [lineCall?_of_word? hword]
  cases after? ['('] (trimStart (' ' :: rest)) with
  | none => rfl
  | some args =>
    have hname : String.ofList "ataujika".toList = "ataujika" := String.ofList_toList
    dsimp only [Option.map_some]
    rw [hname, run_get_bind, hf]
    rfl

theorem executeLine_of_otherBranch {s : State} (call : Caller) {rest : List Char}
    (ha : isAssignment ("ataujika ".toList ++ rest) = false)
    (hf : s.functions.has "ataujika" = false) :
    (executeLine call ("ataujika ".toList ++ rest)).run.run s =
      (.error (.unknownStatement (String.ofList ("ataujika ".toList ++ rest))), s) := by
  have hline : executeLine call ("ataujika ".toList ++ rest) = (do
      if (← executeCall call ("ataujika ".toList ++ rest)) then pure ()
      else if isAssignment ("ataujika ".toList ++ rest) then
        assignLine call ("ataujika ".toList ++ rest)
      else throw (.unknownStatement (String.ofList ("ataujika ".toList ++ rest)))) := rfl
  rw [hline, run_bind_of_ok _ (executeCall_of_otherBranch call rest hf), ha]
  rfl

/-- The first condition holds, and after its body the header of the next branch is not understood. -/
theorem executeBranch_of_stranded {s t : State} {a : Arm "ataujika "} {rest : List (Arm "ataujika ")}
    (hat : LinesAt lines i c.lines) (hfirst : Answers call s c.first.condition true)
    (hbody : (executeBlock call lines (i + 1) (i + 1 + c.first.body.length)).run.run s = (.ok (), t))
    (ht : t.leaving = false) (hothers : c.others = a :: rest)
    (ha : isAssignment (trim a.header.toList) = false) (hf : t.functions.has "ataujika" = false) :
    (executeBranch call lines i false).run.run s =
      (.error (.atLine (i + 1 + c.first.body.length + 1)
        ("Syntax tidak dikenali: " ++ String.ofList (trim a.header.toList))), t) := by
  obtain ⟨text, hline, -⟩ := a.opens
  rw [hline] at ha
  have hnumbered : ∀ n, (executeNumbered call n (trim a.header.toList)).run.run t =
      (.error (.atLine n ("Syntax tidak dikenali: " ++ String.ofList (trim a.header.toList))), t) := by
    intro n
    rw [hline]
    exact run_tryCatch_of_error _ (executeLine_of_otherBranch call ha hf)
  rw [executeBranch_eq hat, run_bind_of_ok _ hfirst, if_pos rfl, run_bind_of_ok _ hbody, hothers,
    asStatements, inTurn, run_get_bind, ht]
  exact run_bind_of_error _ (hnumbered _)

end Branches

/-- What a conditional with any number of branches does. It ends after its closing line. Only its first
condition is evaluated: if it holds, the lines up to the branch without a condition are executed, and the
headers of the other branches among them as statements; if not, the branch without a condition is. The
first true branch is executed if there is no other branch; if no condition holds; and if the first one
holds and its body fails or is being left. If its body ends otherwise, the header of the next branch is a
failure. -/
theorem conditional_decides_once (call : Caller) (c : Conditional) {lines : Array String} {i : Nat}
    (hat : LinesAt lines i c.lines) :
    conditionalEnd lines i = i + c.lines.length ∧
    executeBranch call lines i false = (do
      if (← holds call c.first.condition) then
        executeBlock call lines (i + 1) (i + 1 + c.first.body.length)
        asStatements call lines c.others (i + 1 + c.first.body.length)
      else c.runFallback call lines (i + 1 + c.armLines.length)) ∧
    (c.others = [] → executeBranch call lines i false = c.firstTrue call lines i) ∧
    ∀ s,
      (Answers call s c.first.condition false → (∀ a ∈ c.others, Answers call s a.condition false) →
        (executeBranch call lines i false).run.run s = (c.firstTrue call lines i).run.run s) ∧
      (Answers call s c.first.condition true → ∀ r t,
        (executeBlock call lines (i + 1) (i + 1 + c.first.body.length)).run.run s = (r, t) →
        ((r = .ok () → t.leaving = true) →
          (executeBranch call lines i false).run.run s = (c.firstTrue call lines i).run.run s) ∧
        (r = .ok () → t.leaving = false → ∀ a rest, c.others = a :: rest →
          isAssignment (trim a.header.toList) = false → t.functions.has "ataujika" = false →
          (executeBranch call lines i false).run.run s =
            (.error (.atLine (i + 1 + c.first.body.length + 1)
              ("Syntax tidak dikenali: " ++ String.ofList (trim a.header.toList))), t))) := by
  refine ⟨conditionalEnd_eq hat, executeBranch_eq hat, executeBranch_of_no_others hat, fun s =>
    ⟨executeBranch_of_all_false hat, fun hfirst r t hbody =>
      ⟨executeBranch_of_left hat hfirst hbody, ?_⟩⟩⟩
  intro hr ht a rest hothers ha hf
  rw [hr] at hbody
  exact executeBranch_of_stranded hat hfirst hbody ht hothers ha hf

/-- The first branch of `tiers`. -/
def firstTier : List String := ["  jika salah", "    lapor kosong", "  atau", "    lapor salah", "  akhir"]

theorem nested_firstTier : Nested false firstTier := by
  have hinner : Nested true ["    lapor kosong", "  atau", "    lapor salah"] :=
    .line (by decide) (.parts (.inl (by decide)) (.line (by decide) .nil))
  have hopens : Opens "jika " "salah".toList "  jika salah" := ⟨"salah".toList, by decide, by decide⟩
  have hcloses : Says closingWord "  akhir" := by decide
  exact .block (hopens.starts (by decide)) hinner hcloses .nil

/-- A conditional with a branch of each kind, and with another conditional in its first branch. -/
def tiers (b : Bool) : Conditional where
  first :=
    { header := if b then "jika benar" else "jika salah"
      condition := if b then "benar".toList else "salah".toList
      body := firstTier
      opens := by
        cases b with
        | false => exact ⟨"salah".toList, by decide, by decide⟩
        | true => exact ⟨"benar".toList, by decide, by decide⟩
      nested := nested_firstTier }
  others :=
    [{ header := "ataujika benar"
       condition := "benar".toList
       body := ["  lapor benar"]
       opens := ⟨"benar".toList, by decide, by decide⟩
       nested := .line (by decide) .nil }]
  otherwise :=
    some
      { header := "atau"
        body := ["  lapor kosong"]
        parts := by decide
        nested := .line (by decide) .nil }
  last := "akhir"
  closes := by decide

/-- A program with that conditional at its second line. -/
def tiered (b : Bool) : Array String := ("lapor 0" :: ((tiers b).lines ++ ["lapor 5"])).toArray

theorem linesAt_tiered (b : Bool) : LinesAt (tiered b) 1 (tiers b).lines :=
  ⟨["lapor 0"], ["lapor 5"], rfl, rfl⟩

/-- The tree of the first branch. -/
def firstTierTree : Tree :=
  .choice "salah".toList (.line "lapor kosong".toList .nil) (.line "lapor salah".toList .nil) .nil

theorem executeBlock_firstTier (call : Caller) (b : Bool) :
    executeBlock call (tiered b) 2 7 = firstTierTree.run call 2 := by
  have hlow : Written (.line "lapor kosong".toList .nil) ["    lapor kosong"] :=
    .line (by decide) (by decide) .nil
  have hhigh : Written (.line "lapor salah".toList .nil) ["    lapor salah"] :=
    .line (by decide) (by decide) .nil
  have hopens : Opens "jika " "salah".toList "  jika salah" := ⟨"salah".toList, by decide, by decide⟩
  have hparts : Says "atau" "  atau" := by decide
  have hcloses : Says closingWord "  akhir" := by decide
  have hwritten : Written firstTierTree firstTier := .choice hopens hlow hparts hhigh hcloses .nil
  exact hwritten.executeBlock_eq rfl (linesAt_tiered b).tail.left.left rfl

theorem executeBlock_secondTier (call : Caller) (b : Bool) :
    executeBlock call (tiered b) 8 9 = (Tree.line "lapor benar".toList .nil).run call 8 := by
  have hwritten : Written (.line "lapor benar".toList .nil) ["  lapor benar"] :=
    .line (by decide) (by decide) .nil
  exact hwritten.executeBlock_eq rfl (linesAt_tiered b).tail.left.right.tail rfl

theorem executeBlock_lastTier (call : Caller) (b : Bool) :
    executeBlock call (tiered b) 10 11 = (Tree.line "lapor kosong".toList .nil).run call 10 := by
  have hwritten : Written (.line "lapor kosong".toList .nil) ["  lapor kosong"] :=
    .line (by decide) (by decide) .nil
  exact hwritten.executeBlock_eq rfl (linesAt_tiered b).tail.right.tail.left rfl

theorem conditional_decides_once_tiers :
    LinesAt (tiered true) 1 (tiers true).lines ∧ conditionalEnd (tiered true) 1 = 12 ∧
    ∃ t : State, t.printed = #["salah\n"] ∧
      (executeBranch call (tiered true) 1 false).run.run { chance := .steady } =
        (.error (.atLine 8 "Syntax tidak dikenali: ataujika benar"), t) := by
  have hat := linesAt_tiered true
  have hfirst : Answers call { chance := .steady } (tiers true).first.condition true :=
    answers_of_literal rfl
  obtain ⟨hend, -, -, hruns⟩ := conditional_decides_once call (tiers true) hat
  obtain ⟨t, hbody, hprinted, hleaving, hfunctions⟩ : ∃ t,
      (executeBlock call (tiered true) 2 7).run.run { chance := .steady } = (.ok (), t) ∧
      t.printed = #["salah\n"] ∧ t.leaving = false ∧ t.functions.has "ataujika" = false := by
    rw [executeBlock_firstTier]
    exact ⟨_, eq_ok_of_isOk (by decide +kernel), by decide +kernel⟩
  refine ⟨hat, hend, t, hprinted, ?_⟩
  exact ((hruns _).2 hfirst _ _ hbody).2 rfl hleaving _ _ rfl (by decide) hfunctions

theorem firstTrue_tiers (b : Bool) :
    (tiers b).firstTrue call (tiered b) 1 = (do
      if (← holds call (tiers b).first.condition) then firstTierTree.run call 2
      else if (← holds call "benar".toList) then (Tree.line "lapor benar".toList .nil).run call 8
      else (Tree.line "lapor kosong".toList .nil).run call 10) := by
  rw [← executeBlock_firstTier call b, ← executeBlock_secondTier call b, ← executeBlock_lastTier call b]
  rfl

theorem executeBranch_tiers (b : Bool) :
    executeBranch call (tiered b) 1 false = (do
      if (← holds call (tiers b).first.condition) then
        firstTierTree.run call 2
        inTurn (executeNumbered call 8 "ataujika benar".toList) do
          (Tree.line "lapor benar".toList .nil).run call 8
          pure ()
      else (Tree.line "lapor kosong".toList .nil).run call 10) := by
  rw [← executeBlock_firstTier call b, ← executeBlock_secondTier call b, ← executeBlock_lastTier call b]
  exact executeBranch_eq (linesAt_tiered b)

/-- A conditional may not execute its first true branch: the second one is left out where it is the first
true one, and is a failure where it is not. -/
theorem first_true_not_executed :
    (((tiers false).firstTrue call (tiered false) 1).run.run { chance := .steady }).2.printed =
      #["benar\n"] ∧
    ((executeBranch call (tiered false) 1 false).run.run { chance := .steady }).2.printed = #["kosong\n"] ∧
    (((tiers true).firstTrue call (tiered true) 1).run.run { chance := .steady }).1.isOk = true ∧
    ((executeBranch call (tiered true) 1 false).run.run { chance := .steady }).1.isOk = false := by
  simp only [firstTrue_tiers, executeBranch_tiers]
  decide +kernel

end Birokrasi.Extended
