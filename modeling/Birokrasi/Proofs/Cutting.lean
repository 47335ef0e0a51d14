import Birokrasi.Text.Class
import Birokrasi.Text.Split

/-!
# What trimming and cutting keep

Trimming removes blanks only (`mem_trim_iff`) and all there are to remove (`trim_trim`,
`trim_eq_self_iff`), and a cut is found exactly where the separator first occurs: nowhere if one of its
characters is missing (`cut?_eq_none`), and after a text that does not hold its first character
(`cut?_append`). A separator lies on one side of every character that it does not hold
(`cut?_append_cons_of_some`, `cut?_append_cons_of_none`). What does not occur is not replaced
(`replaceFrom_eq_self`), and a text from which something is taken out becomes shorter
(`length_replaceFrom_lt`).
-/

namespace Birokrasi.Text

variable {c : Char} {s l r lead sep : List Char}

/-! ## Words and blanks -/

/-- The code points of the blanks. -/
def blankPoints : List Nat :=
  [9, 10, 11, 12, 13, 28, 29, 30, 31, 32, 0x85, 0xA0, 0x1680, 0x2000, 0x2001, 0x2002, 0x2003, 0x2004,
    0x2005, 0x2006, 0x2007, 0x2008, 0x2009, 0x200A, 0x2028, 0x2029, 0x202F, 0x205F, 0x3000]

theorem mem_blankPoints (h : isBlank c = true) : c.toNat ∈ blankPoints := by
  simp only [isBlank, Bool.or_eq_true, Bool.and_eq_true, decide_eq_true_eq, beq_iff_eq,
    or_assoc] at h
  rcases h with h | h | h | h | h | h | h | h | h | h | h
  all_goals
    simp only [blankPoints, List.mem_cons, List.not_mem_nil, or_false]
    omega

theorem isWord_eq_false_of_isBlank (h : isBlank c = true) : isWord c = false := by
  have hall : ∀ n ∈ blankPoints, isWord (Char.ofNat n) = false := by decide +kernel
  have := hall _ (mem_blankPoints h)
  rwa [Char.ofNat_toNat] at this

theorem isBlank_eq_false_of_isWord (h : isWord c = true) : isBlank c = false := by
  rw [Bool.eq_false_iff]
  intro hb
  rw [isWord_eq_false_of_isBlank hb] at h
  cases h

/-! ## Trimming -/

theorem mem_of_mem_trim (h : c ∈ trim s) : c ∈ s := by
  have hstart : c ∈ trimStart s := by
    rw [trim, trimEnd, List.mem_reverse] at h
    exact List.mem_reverse.1 ((List.dropWhile_suffix isBlank).subset h)
  exact (List.dropWhile_suffix isBlank).subset hstart

theorem mem_dropWhile_isBlank (h : c ∈ s) (hc : isBlank c = false) : c ∈ s.dropWhile isBlank := by
  induction s with
  | nil => simp at h
  | cons x s ih =>
    by_cases hx : isBlank x
    · have hne : c ≠ x := by
        rintro rfl
        simp [hc] at hx
      rw [List.dropWhile_cons_of_pos hx]
      exact ih ((List.mem_cons.1 h).resolve_left hne)
    · rwa [List.dropWhile_cons_of_neg hx]

theorem mem_trim_of_not_blank (h : c ∈ s) (hc : isBlank c = false) : c ∈ trim s := by
  rw [trim, trimEnd, List.mem_reverse]
  exact mem_dropWhile_isBlank (List.mem_reverse.2 (mem_dropWhile_isBlank h hc)) hc

/-- What is not blank is in the trimmed text exactly if it is in the text. -/
theorem mem_trim_iff (hc : isBlank c = false) : c ∈ trim s ↔ c ∈ s :=
  ⟨mem_of_mem_trim, fun h => mem_trim_of_not_blank h hc⟩

theorem dropWhile_eq_self {p : Char → Bool} (h : ∀ c t, s = c :: t → p c = false) :
    s.dropWhile p = s := by
  cases s with
  | nil => rfl
  | cons c t => rw [List.dropWhile_cons_of_neg (by simp [h c t rfl])]

theorem not_blank_of_dropWhile {t : List Char} (h : s.dropWhile isBlank = c :: t) :
    isBlank c = false := by
  have hhead := List.head?_dropWhile_not isBlank s
  rw [h] at hhead
  simpa using hhead

theorem trimEnd_prefix (s : List Char) : trimEnd s <+: s := by
  rw [trimEnd, ← List.reverse_suffix, List.reverse_reverse]
  exact List.dropWhile_suffix _

theorem trimEnd_subset (s : List Char) : trimEnd s ⊆ s := by
  have hfront : trimEnd s <+: s := trimEnd_prefix s
  exact hfront.subset

theorem trimEnd_trimEnd (s : List Char) : trimEnd (trimEnd s) = trimEnd s := by
  rw [trimEnd, trimEnd, List.reverse_reverse,
    dropWhile_eq_self fun c t h => not_blank_of_dropWhile h]

theorem trimStart_trim (s : List Char) : trimStart (trim s) = trim s := by
  refine dropWhile_eq_self fun c t h => ?_
  obtain ⟨r, hr⟩ := trimEnd_prefix (trimStart s)
  rw [← trim, h] at hr
  exact not_blank_of_dropWhile hr.symm

/-- A trimmed text has no blanks at its ends left. -/
theorem trim_trim (s : List Char) : trim (trim s) = trim s := by
  rw [trim, trimStart_trim, trim, trimEnd_trimEnd]

theorem trimStart_eq_self (h : s.head?.any isBlank = false) : trimStart s = s :=
  dropWhile_eq_self fun c t hs => by simpa [hs] using h

theorem trimEnd_eq_self (h : s.getLast?.any isBlank = false) : trimEnd s = s := by
  have hstart : trimStart s.reverse = s.reverse := trimStart_eq_self (by rwa [List.head?_reverse])
  rw [trimEnd, ← trimStart, hstart, List.reverse_reverse]

/-- A text is as it is after trimming if there are no blanks at its ends. -/
theorem trim_eq_self_iff :
    trim s = s ↔ s.head?.any isBlank = false ∧ s.getLast?.any isBlank = false := by
  constructor
  · intro h
    have hstart : s.dropWhile isBlank = s := by
      have := trimStart_trim s
      rwa [h] at this
    have hend : s.reverse.dropWhile isBlank = s.reverse := by
      rw [← List.reverse_reverse (s.reverse.dropWhile isBlank), ← trimEnd, ← h, trim,
        trimEnd_trimEnd]
    have hfirst (t : List Char) (ht : t.dropWhile isBlank = t) : t.head?.any isBlank = false := by
      cases t with
      | nil => rfl
      | cons c t => exact not_blank_of_dropWhile ht
    refine ⟨hfirst s hstart, ?_⟩
    rw [← List.head?_reverse]
    exact hfirst s.reverse hend
  · rintro ⟨hhead, hlast⟩
    rw [trim, trimStart_eq_self hhead, trimEnd_eq_self hlast]

theorem trim_eq_self (h : ∀ c ∈ s, isBlank c = false) : trim s = s := by
  refine trim_eq_self_iff.2 ⟨?_, ?_⟩ <;> rw [Option.any_eq_false]
  · exact fun c hc => by simp [h c (List.mem_of_mem_head? hc)]
  · exact fun c hc => by simp [h c (List.mem_of_getLast? hc)]

/-- The blanks around a text are removed, and no others. -/
theorem trim_between {before behind : List Char} (hne : s ≠ []) (hs : trim s = s)
    (hbefore : before.all isBlank = true) (hbehind : behind.all isBlank = true) :
    trim (before ++ s ++ behind) = s := by
  have hhead := (trim_eq_self_iff.1 hs).1
  have hstart : trimStart (s ++ behind) = s ++ behind := by
    refine trimStart_eq_self ?_
    rwa [List.head?_append, Option.or_of_isSome (by simpa using hne)]
  have hend : trimEnd (s ++ behind) = trimEnd s := by
    rw [trimEnd, List.reverse_append, List.dropWhile_append_of_pos]
    · rfl
    · exact fun c hc => List.all_eq_true.1 hbehind c (List.mem_reverse.1 hc)
  calc trim (before ++ s ++ behind)
      = trimEnd (trimStart (before ++ (s ++ behind))) := by rw [trim, List.append_assoc]
    _ = trimEnd (trimStart (s ++ behind)) := by
        rw [trimStart, List.dropWhile_append_of_pos (List.all_eq_true.1 hbefore), ← trimStart]
    _ = trimEnd s := by rw [hstart, hend]
    _ = s := trimEnd_eq_self (trim_eq_self_iff.1 hs).2

theorem trim_blank_cons (s : List Char) : trim (' ' :: s) = trim s := rfl

theorem trim_append_blank (s : List Char) : trim (s ++ [' ']) = trim s := by
  have hend (t : List Char) : trimEnd (t ++ [' ']) = trimEnd t := by
    rw [trimEnd, List.reverse_append]
    rfl
  rw [trim, trimStart, List.dropWhile_append, ← trimStart]
  split
  next hempty =>
    rw [trim, List.isEmpty_iff.1 hempty]
    rfl
  next => rw [hend, trim]

/-- Blanks at the end are removed up to a character that is none. -/
theorem trim_append_cons (hhead : (l ++ c :: r).head?.any isBlank = false) (hc : isBlank c = false) :
    trim (l ++ c :: r) = l ++ c :: trimEnd r := by
  have hstop : (c :: l.reverse).dropWhile isBlank = c :: l.reverse := by
    rw [List.dropWhile_cons_of_neg (by simp [hc])]
  have hdrop : (r.reverse ++ c :: l.reverse).dropWhile isBlank =
      r.reverse.dropWhile isBlank ++ c :: l.reverse := by
    rw [List.dropWhile_append]
    split
    next hempty => rw [hstop, List.isEmpty_iff.1 hempty, List.nil_append]
    next => rfl
  rw [trim, trimStart_eq_self hhead, trimEnd, trimEnd, List.reverse_append, List.reverse_cons,
    List.append_assoc, List.singleton_append, hdrop]
  simp

/-- A text between two trimmed ones is trimmed with them, whatever it is. -/
theorem trim_append (hl : l ≠ []) (hr : r ≠ []) (htl : trim l = l) (htr : trim r = r)
    (s : List Char) : trim (l ++ s ++ r) = l ++ s ++ r := by
  refine trim_eq_self_iff.2 ⟨?_, ?_⟩
  · rw [List.append_assoc, List.head?_append, Option.or_of_isSome (by simpa using hl)]
    exact (trim_eq_self_iff.1 htl).1
  · rw [List.getLast?_append, Option.or_of_isSome (by simpa using hr)]
    exact (trim_eq_self_iff.1 htr).2

/-! ## Cutting -/

theorem after?_append (lead s : List Char) : after? lead (lead ++ s) = some s := by
  induction lead with
  | nil => rfl
  | cons c lead ih => simp [after?, ih]

theorem cut?_eq_none (hc : c ∈ sep) (h : c ∉ s) : cut? sep s = none := by
  cases hcut : cut? sep s with
  | none => rfl
  | some sides =>
    obtain ⟨before, rest⟩ := sides
    have heq : s = before ++ sep ++ rest := cut?_eq_some hcut
    exact absurd (by rw [heq]; simp [hc]) h

/-- As for one character: none of some is in the text, but one of them is in the separator. -/
theorem cut?_eq_none_of_any (h : ∀ c ∈ l, c ∉ s) (hany : l.any sep.contains = true) :
    cut? sep s = none := by
  obtain ⟨c, hc, hsep⟩ := List.any_eq_true.1 hany
  exact cut?_eq_none (List.contains_iff_mem.1 hsep) (h c hc)

theorem cut?_cons (h : after? sep (c :: s) = none) (hs : cut? sep s = some (l, r)) :
    cut? sep (c :: s) = some (c :: l, r) := by
  rw [cut?, h, hs]
  rfl

theorem cut?_append (h : c ∉ l) : cut? (c :: sep) (l ++ (c :: sep) ++ r) = some (l, r) := by
  induction l with
  | nil =>
    rw [List.nil_append, List.cons_append, cut?, ← List.cons_append, after?_append]
  | cons x l ih =>
    have hx : c ≠ x := by
      rintro rfl
      simp at h
    have hnone : after? (c :: sep) (x :: (l ++ (c :: sep) ++ r)) = none := by simp [after?, hx]
    exact cut?_cons hnone (ih fun hm => h (by simp [hm]))

/-- What stands in front of a character that is looked for does not hold it. -/
theorem not_mem_of_cut? (h : cut? [c] s = some (l, r)) : c ∉ l := by
  induction s generalizing l with
  | nil => cases h
  | cons d s ih =>
    rw [cut?] at h
    split at h
    next =>
      cases h
      exact List.not_mem_nil
    next hnone =>
      obtain ⟨⟨before, behind⟩, hcut, heq⟩ := Option.map_eq_some_iff.1 h
      cases heq
      have hne : c ≠ d := by
        rintro rfl
        cases s <;> simp [after?] at hnone
      exact fun hmem => (List.mem_cons.1 hmem).elim hne (ih hcut)

theorem cut?_append_of_notMem_left (hl : c ∉ l) (hs : cut? (c :: sep) s = none) :
    cut? (c :: sep) (l ++ s) = none := by
  induction l with
  | nil => exact hs
  | cons x l ih =>
    have hx : c ≠ x := fun h => hl (by simp [h])
    have hnone : after? (c :: sep) (x :: (l ++ s)) = none := by simp [after?, hx]
    rw [List.cons_append, cut?, hnone, ih fun h => hl (by simp [h])]
    rfl

theorem after?_append_cons (hc : c ∉ sep) (l r : List Char) :
    after? sep (l ++ c :: r) = (after? sep l).map (· ++ c :: r) := by
  induction sep generalizing l with
  | nil => rfl
  | cons x sep ih =>
    obtain ⟨hx, hsep⟩ := not_or.1 fun h => hc (List.mem_cons.2 h)
    cases l with
    | nil => simp [after?, Ne.symm hx]
    | cons y l =>
      rw [List.cons_append, after?, after?]
      split
      · exact ih hsep l
      · rfl

/-- What is found before a character that is not in the separator is found there with it. -/
theorem cut?_append_cons_of_some (hc : c ∉ sep) {b : List Char} (h : cut? sep l = some (s, b)) :
    cut? sep (l ++ c :: r) = some (s, b ++ c :: r) := by
  induction l generalizing s with
  | nil =>
    rw [cut?] at h
    split at h
    next hnil =>
      cases h
      rw [hnil]
      rfl
    next => cases h
  | cons x l ih =>
    rw [cut?] at h
    rw [List.cons_append, cut?, ← List.cons_append, after?_append_cons hc]
    split at h
    next rest hrest =>
      cases h
      rw [hrest]
      rfl
    next hnone =>
      obtain ⟨⟨before, rest⟩, hcut, heq⟩ := Option.map_eq_some_iff.1 h
      cases heq
      rw [hnone, Option.map_none, ih hcut]
      rfl

/-- A separator that is not found before a character that it does not hold is looked for behind it. -/
theorem cut?_append_cons_of_none (hc : c ∉ sep) (h : cut? sep l = none) :
    cut? sep (l ++ c :: r) = (cut? sep r).map fun sides => (l ++ c :: sides.1, sides.2) := by
  induction l with
  | nil =>
    have hne : sep ≠ [] := fun hnil => by simp [cut?, hnil] at h
    obtain ⟨x, sep, rfl⟩ := List.exists_cons_of_ne_nil hne
    have hx : x ≠ c := fun hx => hc (by simp [hx])
    rw [List.nil_append, cut?, after?, if_neg hx]
    rfl
  | cons x l ih =>
    rw [cut?] at h
    rw [List.cons_append, cut?, ← List.cons_append, after?_append_cons hc]
    split at h
    next => cases h
    next hnone =>
      rw [hnone, Option.map_none, ih (Option.map_eq_none_iff.1 h), Option.map_map]
      rfl

/-- A separator is looked for on both sides of a character that it does not hold. -/
theorem cut?_append_cons (hc : c ∉ sep) (l r : List Char) :
    cut? sep (l ++ c :: r) =
      ((cut? sep l).map fun sides => (sides.1, sides.2 ++ c :: r)).or
        ((cut? sep r).map fun sides => (l ++ c :: sides.1, sides.2)) := by
  cases h : cut? sep l with
  | none => rw [cut?_append_cons_of_none hc h, Option.map_none, Option.none_or]
  | some sides => rw [cut?_append_cons_of_some hc h, Option.map_some, Option.some_or]

/-- A separator that is on neither side of a character that it does not hold is nowhere. -/
theorem cut?_append_cons_eq_none (hc : c ∉ sep) (hl : cut? sep l = none) (hr : cut? sep r = none) :
    cut? sep (l ++ c :: r) = none := by
  rw [cut?_append_cons_of_none hc hl, hr]
  rfl

theorem after?_append_eq_none (hr : c ∉ r) (hlead : ∀ x ∈ lead, x = c)
    (hs : after? lead s = none) : after? lead (s ++ r) = none := by
  induction lead generalizing s with
  | nil => simp [after?] at hs
  | cons x lead ih =>
    obtain rfl := hlead x List.mem_cons_self
    cases s with
    | nil =>
      cases r with
      | nil => rfl
      | cons y r =>
        have hy : x ≠ y := fun h => hr (by simp [h])
        simp [after?, hy]
    | cons y s =>
      simp only [after?, List.cons_append] at hs ⊢
      split
      next hxy =>
        rw [if_pos hxy] at hs
        exact ih (fun z hz => hlead z (List.mem_cons_of_mem x hz)) hs
      next => rfl

/-- A separator of one repeated character is not completed by a text without this character. -/
theorem cut?_append_of_notMem_right {n : Nat} (hr : c ∉ r)
    (hs : cut? (List.replicate (n + 1) c) s = none) :
    cut? (List.replicate (n + 1) c) (s ++ r) = none := by
  induction s with
  | nil => exact cut?_eq_none (c := c) (by simp) hr
  | cons x s ih =>
    rw [cut?] at hs
    split at hs
    · cases hs
    · next hnone =>
      have hnone' : after? (List.replicate (n + 1) c) (x :: (s ++ r)) = none :=
        after?_append_eq_none hr (fun y hy => List.eq_of_mem_replicate hy) hnone
      rw [List.cons_append, cut?, hnone', ih (by simpa using hs)]
      rfl

theorem occursIn_behind {sub : List Char} (l : List Char) (h : occursIn sub s = true) :
    occursIn sub (l ++ s) = true := by
  induction l with
  | nil => exact h
  | cons x l ih =>
    rw [List.cons_append, occursIn, cut?]
    split
    · rfl
    · rw [Option.isSome_map]
      exact ih

theorem occursIn_append (c : Char) (sub l r : List Char) :
    occursIn (c :: sub) (l ++ (c :: sub) ++ r) = true := by
  rw [List.append_assoc]
  refine occursIn_behind l ?_
  rw [List.cons_append, occursIn, cut?, ← List.cons_append, after?_append]
  rfl

theorem replaceFrom_eq_self {sub by' : List Char} (s : List Char) (h : occursIn sub s = false) :
    replaceFrom sub by' 0 s = s := by
  induction s with
  | nil => rfl
  | cons c s ih =>
    rw [occursIn, cut?] at h
    split at h
    · cases h
    · next hnone =>
      rw [replaceFrom, startsWith, hnone]
      simp only [Option.isSome_map] at h
      simp [ih h]

theorem length_replaceFrom_le (sub : List Char) (skip : Nat) (s : List Char) :
    (replaceFrom sub [] skip s).length ≤ s.length := by
  induction s generalizing skip with
  | nil => cases skip <;> exact Nat.le_refl _
  | cons c s ih =>
    cases skip with
    | succ skip => exact Nat.le_succ_of_le (ih skip)
    | zero =>
      rw [replaceFrom]
      split
      · exact Nat.le_succ_of_le (ih _)
      · exact Nat.succ_le_succ (ih 0)

/-- A text becomes shorter if something that occurs in it is taken out. -/
theorem length_replaceFrom_lt {sub : List Char} (h : occursIn sub s = true) (hsub : sub ≠ []) :
    (replaceFrom sub [] 0 s).length < s.length := by
  induction s with
  | nil =>
    rw [occursIn, cut?, if_neg hsub] at h
    cases h
  | cons c s ih =>
    rw [replaceFrom]
    split
    · exact Nat.lt_succ_of_le (length_replaceFrom_le sub _ s)
    next hstart =>
      refine Nat.succ_lt_succ (ih ?_)
      rw [occursIn, cut?, Option.not_isSome_iff_eq_none.1 hstart, Option.isSome_map] at h
      exact h

end Birokrasi.Text
