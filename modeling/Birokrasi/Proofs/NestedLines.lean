import Birokrasi.Proofs.CallFree
import Birokrasi.Proofs.Outcome
import Birokrasi.Proofs.TreeExecution

/-!
# Statements in well nested lines

Every statement looks for its own end, by counting: functions, conditionals and loops do so in three
different ways. In lines in which every block that is opened is closed (`Nested`), none of them looks
beyond the lines, wherever the statement starts (`nextLine_le`). So such lines are executed as a block
of their own, whatever follows them (`executeBlock_append`).
-/

namespace Birokrasi.Extended

open Birokrasi.Text
open Birokrasi.Extended.Tree (inTurn runLine)

/-! ## One statement after the other -/

section Statements

variable {call : Caller} {lines : Array String} {i stop : Nat} {s : State}

theorem executeBlock_of_le (h : stop ≤ i) : executeBlock call lines i stop = pure () := by
  rw [executeBlock, dif_neg (by omega)]

/-- Nothing is executed while a block is being left. -/
theorem executeBlock_of_leaving (h : s.leaving = true) :
    (executeBlock call lines i stop).run.run s = (.ok (), s) := by
  rw [executeBlock]
  split
  · rw [run_get_bind, h]
    rfl
  · rfl

/-- What follows a sequence can be put behind it, if it does nothing while a block is being left. -/
theorem inTurn_bind {statement rest follow : Run Unit}
    (h : ∀ s : State, s.leaving = true → follow.run.run s = (.ok (), s)) :
    inTurn statement (do rest; follow) = (do inTurn statement rest; follow) := by
  funext s
  show (inTurn statement (do rest; follow)).run.run s =
    (do inTurn statement rest; follow : Run Unit).run.run s
  unfold inTurn
  rw [run_get_bind, bind_assoc, run_get_bind]
  by_cases hs : s.leaving
  · simp only [hs, if_true, pure_bind]
    rw [h s hs]
    rfl
  · simp only [hs, Bool.false_eq_true, if_false, bind_assoc]

theorem lt_nextLine (hi : i < lines.size) : i < nextLine lines i := by
  have hcond := lt_conditionalEnd hi
  have hblock := le_blockEnd [closingWord] (show i + 1 ≤ lines.size from hi)
  unfold nextLine
  dsimp only
  split
  · omega
  · split
    · exact hcond
    · split <;> omega

/-- Lines whose statements end in front of a line are executed as a block of their own. -/
theorem executeBlock_append {i mid : Nat} (hmid : mid ≤ lines.size) (hi : i ≤ mid) (hstop : mid ≤ stop)
    (h : ∀ j, i ≤ j → j < mid → nextLine lines j ≤ mid) :
    executeBlock call lines i stop =
      (do executeBlock call lines i mid; executeBlock call lines mid stop) := by
  by_cases heq : i = mid
  · rw [heq, executeBlock_of_le (Nat.le_refl mid), pure_bind]
  · have hlt : i < mid := by omega
    have hnext := lt_nextLine (Nat.lt_of_lt_of_le hlt hmid)
    have hle := h i (Nat.le_refl i) hlt
    have ih := executeBlock_append hmid hle hstop fun j hj => h j (by omega)
    rw [executeBlock_of_lt (by omega) (by omega), ih, inTurn_bind fun s => executeBlock_of_leaving,
      ← executeBlock_of_lt (by omega) hlt]
termination_by mid - i

/-- What a condition says in a state, if it can be evaluated without effect. -/
def Answers (call : Caller) (s : State) (condition : List Char) (b : Bool) : Prop :=
  (holds call condition).run.run s = (.ok b, s)

theorem answers_of_literal {condition : List Char} {b : Bool}
    (h : literal? (trim condition) = some (.value (.bool b))) : Answers call s condition b := by
  rw [Answers, holds, evaluate_of_value h]
  rfl

theorem eq_ok_of_isOk {u : Except Failure Unit × State} (h : u.1.isOk = true) : u = (.ok (), u.2) := by
  rcases u with ⟨e | ⟨⟩, t⟩
  · cases h
  · rfl

end Statements

/-! ## Nested lines -/

/-- A trimmed line that neither starts nor parts nor ends a block. -/
def Plain (line : List Char) : Prop :=
  (∀ word ∈ branchWords, line ≠ word.toList) ∧
    startsWithAny ("ataujika " :: blockWords) line = false

instance (line : List Char) : Decidable (Plain line) :=
  inferInstanceAs (Decidable ((∀ word ∈ branchWords, line ≠ word.toList) ∧
    startsWithAny ("ataujika " :: blockWords) line = false))

/-- A line that parts a conditional. -/
def Parts (raw : String) : Prop := Says "atau" raw ∨ ∃ condition, Opens "ataujika " condition raw

/-- Lines in which every block that is opened is closed. Those inside a block may part it. -/
inductive Nested : (inside : Bool) → List String → Prop where
  | nil {inside : Bool} : Nested inside []
  | line {inside : Bool} {raw : String} {ls : List String} :
    Plain (trim raw.toList) → Nested inside ls → Nested inside (raw :: ls)
  | parts {raw : String} {ls : List String} : Parts raw → Nested true ls → Nested true (raw :: ls)
  | block {inside : Bool} {first last : String} {bs ls : List String} :
    Starts first → Nested true bs → Says closingWord last → Nested inside ls →
      Nested inside (first :: (bs ++ last :: ls))

section Nesting

variable {keywords : List String} {depth : Int} {inside : Bool} {raw first last : String}
  {ls ls' bs rest : List String}

/-- A line that leaves the depth as it is. -/
theorem passed_of_ne (hkey : depth = 0 → keywords.contains (String.ofList (trim raw.toList)) = false)
    (hclose : trim raw.toList ≠ closingWord.toList)
    (hstart : startsWithAny blockWords (trim raw.toList) = false) : Passed keywords depth [raw] := by
  intro rest
  have hc : (decide (depth = 0) && keywords.contains (String.ofList (trim raw.toList))) = false := by
    by_cases hd : depth = 0
    · rw [hkey hd, Bool.and_false]
    · simp [hd]
  simp only [List.singleton_append, linesBeforeEnd, hc, hclose, hstart, Bool.false_eq_true, if_false,
    List.length_singleton]

theorem Plain.not_starts {line : List Char} (h : Plain line) : startsWithAny blockWords line = false :=
  (Bool.or_eq_false_iff.1 h.2).2

theorem Parts.not_starts (h : Parts raw) : startsWithAny blockWords (trim raw.toList) = false := by
  rcases h with hatau | ⟨condition, text, hline, -⟩
  · rw [hatau]
    decide
  · rw [hline]
    rfl

theorem passed_of_plain (hk : keywords ⊆ branchWords) (h : Plain (trim raw.toList)) :
    Passed keywords depth [raw] := by
  exact passed_of_ne (fun _ => contains_eq_false hk h.1) (h.1 closingWord (by decide)) h.not_starts

/-- A line that starts another branch is never a closing word. -/
theorem passed_of_otherBranch {condition : List Char} (hk : keywords ⊆ branchWords)
    (h : Opens "ataujika " condition raw) : Passed keywords depth [raw] := by
  have hword : ∀ word ∈ branchWords, trim raw.toList ≠ word.toList := by
    obtain ⟨text, hline, -⟩ := h
    have hshort : ∀ word ∈ branchWords, word.toList.length < 9 := by decide
    intro word hw heq
    have hlen := hshort word hw
    rw [← heq, hline, List.length_append] at hlen
    exact absurd hlen (Nat.not_lt_of_le (Nat.le_add_right 9 _))
  exact passed_of_ne (fun _ => contains_eq_false hk hword) (hword closingWord (by decide))
    (Parts.not_starts (.inr ⟨condition, h⟩))

theorem passed_of_word (h : Says "atau" raw) (hd : depth = 0 → "atau" ∉ keywords) :
    Passed keywords depth [raw] := by
  refine passed_of_ne (fun hzero => ?_) ?_ (Parts.not_starts (.inl h))
  · rw [h, String.ofList_toList, Bool.eq_false_iff]
    exact fun hc => hd hzero (List.contains_iff_mem.1 hc)
  · rw [h]
    decide

/-- Inside a block, lines that part it are passed over, and also where the word is not sought. -/
theorem Nested.passed (h : Nested inside ls) (hk : keywords ⊆ branchWords) (hd : 0 ≤ depth)
    (hin : inside = true → depth = 0 → "atau" ∉ keywords) : Passed keywords depth ls := by
  induction h generalizing depth with
  | nil => exact fun rest => (Nat.zero_add _).symm
  | line hplain _ ih => exact (passed_of_plain hk hplain).append (ih hd hin)
  | @parts raw ls hparts _ ih =>
    have hraw : Passed keywords depth [raw] := by
      rcases hparts with hatau | ⟨condition, hopens⟩
      · exact passed_of_word hatau (hin rfl)
      · exact passed_of_otherBranch hk hopens
    exact hraw.append (ih hd hin)
  | block hfirst _ hlast _ ihb ih =>
    exact passed_of_block hk hd hfirst (ihb (by omega) fun _ _ => by omega) hlast (ih hd hin)

/-- Lines after which the depth is not greater than before, if the end is not among them. -/
def Falls (keywords ls : List String) : Prop :=
  ∀ depth : Int, 0 ≤ depth →
    (∀ rest, linesBeforeEnd keywords depth (ls ++ rest) < ls.length) ∨
    ∃ depth', 0 ≤ depth' ∧ depth' ≤ depth ∧ ∀ rest,
      linesBeforeEnd keywords depth (ls ++ rest) = ls.length + linesBeforeEnd keywords depth' rest

theorem falls_of_passed (h : ∀ depth : Int, 0 ≤ depth → Passed keywords depth ls) :
    Falls keywords ls :=
  fun depth hd => .inr ⟨depth, hd, Int.le_refl depth, h depth hd⟩

theorem Falls.append (h : Falls keywords ls) (h' : Falls keywords ls') :
    Falls keywords (ls ++ ls') := by
  intro depth hd
  rcases h depth hd with hend | ⟨depth₁, hd₁, hle₁, heq₁⟩
  · left
    intro rest
    have := hend (ls' ++ rest)
    rw [List.append_assoc, List.length_append]
    omega
  · rcases h' depth₁ hd₁ with hend | ⟨depth₂, hd₂, hle₂, heq₂⟩
    · left
      intro rest
      have := hend rest
      rw [List.append_assoc, heq₁, List.length_append]
      omega
    · right
      refine ⟨depth₂, hd₂, by omega, fun rest => ?_⟩
      rw [List.append_assoc, heq₁, heq₂, List.length_append, Nat.add_assoc]

/-- A line that is one of the words sought, or leaves the depth as it is. -/
theorem falls_of_parts (hk : keywords ⊆ branchWords) (h : Parts raw) : Falls keywords [raw] := by
  rcases h with hatau | ⟨condition, hopens⟩
  · intro depth hd
    by_cases hfound : depth = 0 ∧ "atau" ∈ keywords
    · obtain ⟨rfl, hmem⟩ := hfound
      left
      intro rest
      rw [List.singleton_append, linesBeforeEnd_of_mem hmem hatau]
      exact Nat.zero_lt_one
    · exact .inr ⟨depth, hd, Int.le_refl depth,
        passed_of_word hatau fun hzero hmem => hfound ⟨hzero, hmem⟩⟩
  · exact falls_of_passed fun depth _ => passed_of_otherBranch hk hopens

theorem falls_of_closes (hmem : closingWord ∈ keywords) (h : Says closingWord raw) :
    Falls keywords [raw] := by
  intro depth hd
  by_cases hzero : depth = 0
  · subst hzero
    left
    intro rest
    rw [List.singleton_append, linesBeforeEnd_of_mem hmem h]
    exact Nat.zero_lt_one
  · right
    refine ⟨depth - 1, by omega, by omega, fun rest => ?_⟩
    rw [Says] at h
    simp only [List.singleton_append, linesBeforeEnd, hzero, decide_false, Bool.false_and,
      Bool.false_eq_true, if_false, h, if_true, List.length_singleton]

theorem falls_of_block (hk : keywords ⊆ branchWords) (hfirst : Starts first) (h : Nested true bs)
    (hlast : Says closingWord last) : Falls keywords (first :: (bs ++ [last])) :=
  falls_of_passed fun depth hd =>
    passed_of_block hk hd hfirst (h.passed hk (by omega) fun _ _ => by omega) hlast
      fun rest => (Nat.zero_add _).symm

/-- Wherever one starts in nested lines, the depth does not grow. -/
theorem Nested.falls (h : Nested inside ls) (hk : keywords ⊆ branchWords)
    (hmem : closingWord ∈ keywords) (hs : rest <:+ ls) : Falls keywords rest := by
  induction h generalizing rest with
  | nil =>
    rw [List.suffix_nil.1 hs]
    exact falls_of_passed fun depth _ rest => (Nat.zero_add _).symm
  | line hplain _ ih =>
    rcases List.suffix_cons_iff.1 hs with rfl | hs
    · exact (falls_of_passed fun depth _ => passed_of_plain hk hplain).append (ih List.suffix_rfl)
    · exact ih hs
  | parts hparts _ ih =>
    rcases List.suffix_cons_iff.1 hs with rfl | hs
    · exact (falls_of_parts hk hparts).append (ih List.suffix_rfl)
    · exact ih hs
  | @block inside first last bs ls hfirst hb hlast _ ihb ih =>
    have hclose := falls_of_closes hmem hlast
    rcases List.suffix_cons_iff.1 hs with rfl | ⟨front, hfront⟩
    · have hwhole := (falls_of_block hk hfirst hb hlast).append (ih List.suffix_rfl)
      simpa only [List.cons_append, List.append_assoc, List.nil_append] using hwhole
    · -- The lines start in the body, at its end or after it.
      rcases List.append_eq_append_iff.1 hfront with ⟨mid, rfl, rfl⟩ | ⟨mid, rfl, htail⟩
      · exact (ihb (List.suffix_append front mid)).append (hclose.append (ih List.suffix_rfl))
      · have hs : rest <:+ last :: ls := ⟨mid, htail.symm⟩
        rcases List.suffix_cons_iff.1 hs with rfl | hs
        · exact hclose.append (ih List.suffix_rfl)
        · exact ih hs

end Nesting

/-! ## Statements end in nested lines -/

section Ends

variable {lines : Array String} {i j : Nat} {inside : Bool} {last : String} {bs ls rest : List String}

theorem LinesAt.drop_eq (h : LinesAt lines i ls) (hj : i ≤ j) (hle : j ≤ i + ls.length) :
    ∃ after, lines.toList.drop j = ls.drop (j - i) ++ after := by
  obtain ⟨before, after, hlines, rfl⟩ := h
  refine ⟨after, ?_⟩
  rw [hlines, List.append_assoc, List.drop_append, List.drop_eq_nil_of_le hj, List.nil_append,
    List.drop_append_of_le_length (by omega)]

/-- The end of a block is sought no further than the line that closes the block around it. -/
theorem blockEnd_le_of_nested {keywords : List String} (hat : LinesAt lines i (bs ++ last :: rest))
    (h : Nested inside bs) (hlast : Says closingWord last) (hk : keywords ⊆ branchWords)
    (hmem : closingWord ∈ keywords) (hj : i ≤ j) (hle : j ≤ i + bs.length) :
    blockEnd lines j keywords ≤ i + bs.length := by
  have hsize := hat.le_size
  simp only [List.length_append, List.length_cons] at hsize
  obtain ⟨after, hdrop⟩ := hat.drop_eq hj (by simp only [List.length_append]; omega)
  rw [blockEnd, if_neg (by omega), hdrop, List.drop_append_of_le_length (by omega), List.append_assoc]
  have hfalls := h.falls hk hmem (List.drop_suffix (j - i) bs)
  rcases hfalls 0 (Int.le_refl 0) with hend | ⟨depth, hd, hle', heq⟩
  · have hlt := hend (last :: rest ++ after)
    rw [List.length_drop] at hlt
    omega
  · obtain rfl : depth = 0 := by omega
    rw [heq, List.cons_append, linesBeforeEnd_of_mem hmem hlast, List.length_drop]
    omega

theorem conditionalEnd_le_of_nested (hat : LinesAt lines i (bs ++ last :: rest))
    (h : Nested inside bs) (hlast : Says closingWord last) (hj : i ≤ j) (hle : j ≤ i + bs.length) :
    conditionalEnd lines j ≤ i + bs.length + 1 := by
  have hclose : Branch.ofLine (lineAt lines (i + bs.length)) = .close := by
    rw [hat.right.lineAt_of_says hlast]
    rfl
  have hbefore {k : Nat} {b : Branch} (hb : Branch.ofLine (lineAt lines k) = b) (hne : b ≠ .close) :
      k ≠ i + bs.length := by
    rintro rfl
    exact hne (hb.symm.trans hclose)
  fun_induction conditionalEnd lines j with
  | case1 j hsize condition hbranch ih =>
    have hlt := hbefore hbranch (by intro heq; cases heq)
    have hstart := le_blockEnd branchWords (show j + 1 ≤ lines.size by omega)
    exact ih (by omega) (blockEnd_le_of_nested hat h hlast (List.Subset.refl _) (by decide) (by omega)
      (by omega))
  | case2 j hsize hbranch ih =>
    have hlt := hbefore hbranch (by intro heq; cases heq)
    have hstart := le_blockEnd [closingWord] (show j + 1 ≤ lines.size by omega)
    exact ih (by omega) (blockEnd_le_of_nested hat h hlast (by decide) (by decide) (by omega) (by omega))
  | case3 => omega
  | case4 j hsize hbranch ih =>
    have hlt := hbefore hbranch (by intro heq; cases heq)
    exact ih (by omega) (by omega)
  | case5 => omega

/-- A function counts fewer blocks than others, so its end is not sought further. -/
theorem bodyLength?_le {depth n : Nat} {depth' : Int} (hd : depth ≤ depth')
    (h : bodyLength? depth ls = some n) : n ≤ linesBeforeEnd [closingWord] depth' ls := by
  induction ls generalizing depth depth' n with
  | nil => cases h
  | cons raw ls ih =>
    rw [bodyLength?.eq_def] at h
    dsimp only at h
    by_cases hclose : trim raw.toList = closingWord.toList
    · simp only [hclose, if_true] at h
      rcases depth with _ | depth
      · cases h
        exact Nat.zero_le _
      · obtain ⟨m, hm, rfl⟩ := Option.map_eq_some_iff.1 h
        have hne : ¬ depth' = 0 := by omega
        have hrest := ih (show (depth : Int) ≤ depth' - 1 by omega) hm
        simp only [linesBeforeEnd, hclose, hne, decide_false, Bool.false_and, Bool.false_eq_true,
          if_false, if_true]
        omega
    · have hkey : [closingWord].contains (String.ofList (trim raw.toList)) = false := by
        rw [Bool.eq_false_iff]
        intro hc
        have heq := List.mem_singleton.1 (List.contains_iff_mem.1 hc)
        exact hclose (by rw [← heq, String.toList_ofList])
      simp only [hclose, if_false] at h
      simp only [linesBeforeEnd, hclose, hkey, Bool.and_false, Bool.false_eq_true, if_false]
      by_cases hfunction : startsWithAny functionBlockWords (trim raw.toList)
      · have hstart : startsWithAny blockWords (trim raw.toList) = true := by
          obtain ⟨word, hword, hw⟩ := List.any_eq_true.1 hfunction
          exact List.any_eq_true.2
            ⟨word, (by decide : functionBlockWords ⊆ blockWords) hword, hw⟩
        simp only [hfunction, if_true] at h
        obtain ⟨m, hm, rfl⟩ := Option.map_eq_some_iff.1 h
        have hrest := ih (show ((depth + 1 : Nat) : Int) ≤ depth' + 1 by omega) hm
        simp only [hstart, if_true]
        omega
      · simp only [hfunction, Bool.false_eq_true, if_false] at h
        obtain ⟨m, hm, rfl⟩ := Option.map_eq_some_iff.1 h
        have hsame := ih hd hm
        have hdeeper := ih (show (depth : Int) ≤ depth' + 1 by omega) hm
        split <;> omega

theorem functionLength_le (hi : i < lines.size) :
    i + 1 + functionLength lines i ≤ blockEnd lines (i + 1) [closingWord] := by
  unfold functionLength blockEnd
  cases hlen : bodyLength? 0 (lines.toList.drop (i + 1)) with
  | none =>
    split
    · exact hi
    · exact Nat.le_add_right _ _
  | some n =>
    have hle := bodyLength?_le (Int.le_refl 0) hlen
    split
    next hend =>
      rw [List.drop_eq_nil_of_le (by simpa using hend)] at hlen
      cases hlen
    next =>
      show i + 1 + n ≤ _
      omega

/-- The statement that a block starts with ends with the block, or before. -/
theorem nextLine_le_of_block {first : String} (hat : LinesAt lines i (first :: (bs ++ last :: rest)))
    (h : Nested inside bs) (hlast : Says closingWord last) :
    nextLine lines i ≤ i + 1 + bs.length + 1 := by
  have hend := blockEnd_le_of_nested hat.tail h hlast (by decide) (List.mem_singleton_self _)
    (Nat.le_refl _) (Nat.le_add_right _ _)
  unfold nextLine
  dsimp only
  split
  · have := functionLength_le hat.lt_size
    omega
  · split
    next hj =>
      obtain ⟨text, htext⟩ := Option.isSome_iff_exists.1 hj
      rw [conditionalEnd_of_condition hat.lt_size (eq_append_of_after? htext)]
      have hstart := le_blockEnd branchWords (show i + 1 ≤ lines.size from hat.lt_size)
      exact conditionalEnd_le_of_nested hat.tail h hlast hstart
        (blockEnd_le_of_nested hat.tail h hlast (List.Subset.refl _) (by decide) (Nat.le_refl _)
          (Nat.le_add_right _ _))
    next =>
      split <;> omega

/-- Wherever a statement starts in nested lines, it does not end after them. -/
theorem nextLine_le (h : Nested inside ls) (hat : LinesAt lines i ls) (hj : i ≤ j)
    (hlt : j < i + ls.length) : nextLine lines j ≤ i + ls.length := by
  have hstep {raw : String} {i : Nat} {ls : List String} (hat : LinesAt lines i (raw :: ls))
      (hraw : startsWithAny blockWords (trim raw.toList) = false) : nextLine lines i = i + 1 :=
    nextLine_of_not_starts (by rw [hat.lineAt_eq, hraw])
  induction h generalizing i with
  | nil =>
    rw [List.length_nil] at hlt
    omega
  | line hplain _ ih =>
    rw [List.length_cons] at hlt ⊢
    rcases Nat.eq_or_lt_of_le hj with rfl | hj
    · rw [hstep hat hplain.not_starts]
      omega
    · have := ih hat.tail hj (by omega)
      omega
  | parts hparts _ ih =>
    rw [List.length_cons] at hlt ⊢
    rcases Nat.eq_or_lt_of_le hj with rfl | hj
    · rw [hstep hat hparts.not_starts]
      omega
    · have := ih hat.tail hj (by omega)
      omega
  | @block inside first last bs ls hfirst hb hlast _ ihb ih =>
    simp only [List.length_cons, List.length_append] at hlt ⊢
    rcases Nat.eq_or_lt_of_le hj with rfl | hj
    · have := nextLine_le_of_block hat hb hlast
      omega
    · by_cases hbody : j < i + 1 + bs.length
      · have := ihb hat.tail.left hj hbody
        omega
      · by_cases hend : j = i + 1 + bs.length
        · have hclose : startsWithAny blockWords (trim last.toList) = false := by
            rw [hlast]
            decide
          rw [hend, hstep hat.tail.right hclose]
          omega
        · have := ih hat.tail.right.tail (by omega) (by omega)
          omega

/-- Nested lines are executed as a block of their own, whatever follows them. -/
theorem executeBlock_of_nested {call : Caller} {stop : Nat} (h : Nested inside ls)
    (hat : LinesAt lines i ls) (hstop : i + ls.length ≤ stop) :
    executeBlock call lines i stop =
      (do
        executeBlock call lines i (i + ls.length)
        executeBlock call lines (i + ls.length) stop) :=
  executeBlock_append hat.le_size (Nat.le_add_right _ _) hstop fun _ => nextLine_le h hat

end Ends

end Birokrasi.Extended
