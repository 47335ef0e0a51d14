import Birokrasi.Proofs.BlockTrees

/-!
# Headers of counted loops

A header, `untuk … dalam …` or `untuk … dari … sampai …`, is read by looking for its words in it, and a
name or an expression may hold these words too. `ofLine_header_iff` says which headers are read as the
loops that they are: those that are legible. In one over items the first word is taken out of the name
wherever it stands there, so that `peruntukan` becomes `peran`; in one over a range the name is what stands
behind the first word, but the header must not look like one over items, and its first expression ends at
the first `sampai` between blanks.
-/

namespace Birokrasi.Extended

open Birokrasi.Text

/-! ## Legible headers -/

/-- A text starts with blanks, a word and another blank. -/
def leadsWith (word s : List Char) : Bool :=
  s.head?.any isBlank && ((after? word (trimStart s)).bind List.head?).any isBlank

/-- A word stands somewhere in a text, between blanks. -/
def standsIn (word : List Char) : List Char → Bool
  | [] => false
  | c :: s => leadsWith word (c :: s) || standsIn word s

/-- Nothing in the header of a loop is mistaken for one of its words. -/
def Span.legible (name : String) : Span → Bool
  | .items _ => name != "dalam" && !occursIn "untuk".toList name.toList
  | .range first last =>
    !occursIn " dalam ".toList (Span.header name (.range first last)) &&
      !standsIn "sampai".toList (first ++ [' '])

/-- All headers of counted loops in a sequence are legible. -/
def Tree.legible : Tree → Bool
  | nil => true
  | line _ next => next.legible
  | branch _ body next => body.legible && next.legible
  | choice _ body otherwise next => body.legible && otherwise.legible && next.legible
  | loop _ body next => body.legible && next.legible
  | count name span body next => span.legible name && body.legible && next.legible

variable {name : String} {expr first last s : List Char} {c : Char}

theorem IsName.not_blank (h : IsName name) : ∀ c ∈ name.toList, isBlank c = false :=
  fun c hc => isBlank_eq_false_of_isWord (List.all_eq_true.1 h.2 c hc)

theorem IsName.not_mem (h : IsName name) (hc : isBlank c = true) : c ∉ name.toList :=
  fun hm => Bool.false_ne_true ((h.not_blank c hm).symm.trans hc)

theorem IsExpr.exists_cons (h : IsExpr expr) : ∃ c s, expr = c :: s ∧ isBlank c = false := by
  obtain ⟨c, s, rfl⟩ := List.exists_cons_of_ne_nil h.1
  exact ⟨c, s, rfl, (trim_eq_self_iff.1 h.2).1⟩

theorem IsExpr.not_blank_at_end (h : IsExpr expr) : expr.getLast?.any isBlank = false :=
  (trim_eq_self_iff.1 h.2).2

/-! ## Loops over items -/

/-- Texts without a character, followed by it, are told apart. -/
theorem eq_of_append_eq {a b t : List Char} (ha : c ∉ a) (hb : c ∉ b)
    (h : a ++ c :: s = b ++ c :: t) : a = b := by
  induction a generalizing b with
  | nil =>
    cases b with
    | nil => rfl
    | cons y b =>
      injection h with hc
      exact absurd (hc ▸ List.mem_cons_self) hb
  | cons x a ih =>
    cases b with
    | nil =>
      injection h with hc
      exact absurd (hc ▸ List.mem_cons_self) ha
    | cons y b =>
      injection h with hx h
      rw [hx, ih (fun hm => ha (.tail _ hm)) (fun hm => hb (.tail _ hm)) h]

/-- A name other than the second word does not make that word occur early. -/
theorem after?_dalam_eq_none (hname : IsName name) (hd : name ≠ "dalam") (expr : List Char) :
    after? " dalam ".toList (' ' :: (name.toList ++ (" dalam ".toList ++ expr))) = none := by
  cases h : after? " dalam ".toList (' ' :: (name.toList ++ (" dalam ".toList ++ expr))) with
  | none => rfl
  | some rest =>
    have heq : name.toList ++ ' ' :: ("dalam ".toList ++ expr) = "dalam".toList ++ ' ' :: rest := by
      have happend := eq_append_of_after? h
      injection happend
    have hsame := eq_of_append_eq (hname.not_mem rfl) (by decide) heq
    exact absurd (String.toList_inj.1 hsame) hd

theorem cut?_header_items (hname : IsName name) (hd : name ≠ "dalam") (expr : List Char) :
    cut? " dalam ".toList (Span.header name (.items expr)) =
      some ("untuk ".toList ++ name.toList, expr) := by
  have hbehind : cut? " dalam ".toList (name.toList ++ (" dalam ".toList ++ expr)) =
      some (name.toList, expr) := by
    rw [← List.append_assoc]
    exact cut?_append (hname.not_mem rfl)
  have hspace := cut?_cons (after?_dalam_eq_none hname hd expr) hbehind
  exact cut?_cons rfl (cut?_cons rfl (cut?_cons rfl (cut?_cons rfl (cut?_cons rfl hspace))))

/-- The first word of the header is taken out of the name too. -/
theorem ofLine_header_items (hname : IsName name) (hd : name ≠ "dalam") (expr : List Char) :
    LoopHeader.ofLine (Span.header name (.items expr)) =
      .over (String.ofList (trim (replaceFrom "untuk".toList [] 0 name.toList)))
        (.items (trim expr)) := by
  have hreplace : replace "untuk".toList [] ("untuk ".toList ++ name.toList) =
      ' ' :: replaceFrom "untuk".toList [] 0 name.toList := rfl
  rw [LoopHeader.ofLine, cut?_header_items hname hd]
  simp only [hreplace, trim_blank_cons]

theorem ofLine_header_items_iff (hname : IsName name) (hexpr : IsExpr expr) :
    LoopHeader.ofLine (Span.header name (.items expr)) = .over name (.items expr) ↔
      (Span.items expr).legible name = true := by
  rw [Span.legible, Bool.and_eq_true, bne_iff_ne, Bool.not_eq_true']
  constructor
  · intro h
    have hd : name ≠ "dalam" := by
      rintro rfl
      have hread : LoopHeader.ofLine (Span.header "dalam" (.items expr)) =
          .over "" (.items (trim ("dalam ".toList ++ expr))) := rfl
      injection hread.symm.trans h with hsame
      exact absurd hsame (by decide)
    refine ⟨hd, ?_⟩
    rw [ofLine_header_items hname hd] at h
    injection h with hsame
    refine Bool.eq_false_iff.2 fun hoccurs => ?_
    have hshorter := length_replaceFrom_lt hoccurs (by decide)
    have htrim := length_trim_le (replaceFrom "untuk".toList [] 0 name.toList)
    have hlength := congrArg (fun n : String => n.toList.length) hsame
    rw [String.toList_ofList] at hlength
    omega
  · rintro ⟨hd, hoccurs⟩
    rw [ofLine_header_items hname hd, replaceFrom_eq_self name.toList hoccurs,
      trim_eq_self hname.not_blank, String.ofList_toList, hexpr.2]

/-! ## Loops over ranges -/

theorem guard_bind {α : Type} (p : Prop) [h : Decidable p] (f : Unit → Option α) :
    (guard p >>= f) = if p then f () else none := by
  cases h <;> rfl

theorem trimStart_blank (hc : isBlank c = false) : trimStart (' ' :: c :: s) = c :: s := by
  rw [trimStart, List.dropWhile_cons_of_pos rfl,
    List.dropWhile_cons_of_neg (Bool.eq_false_iff.1 hc)]

theorem afterRangeWord?_eq_none (hc : isBlank c = false) : afterRangeWord? (c :: s) = none := by
  simp only [afterRangeWord?, ↓guard_bind]
  exact if_neg (Bool.eq_false_iff.1 hc)

theorem afterRangeWord?_eq_some (hlast : IsExpr last) :
    afterRangeWord? (" sampai ".toList ++ last) = some last := by
  obtain ⟨c, s, rfl, hc⟩ := hlast.exists_cons
  have hword : " sampai ".toList ++ c :: s = ' ' :: ("sampai".toList ++ ' ' :: c :: s) := rfl
  have hstart : trimStart (' ' :: ("sampai".toList ++ ' ' :: c :: s)) =
      "sampai".toList ++ ' ' :: c :: s := rfl
  simp only [afterRangeWord?, hword, Option.bind_eq_bind, ↓guard_bind]
  rw [hstart, after?_append, Option.bind_some, trimStart_blank hc]
  rfl

/-- A text whose last character is not blank is trimmed at its front on its own. -/
theorem trimStart_append (hne : s ≠ []) (hs : s.getLast?.any isBlank = false) (t : List Char) :
    trimStart (s ++ t) = trimStart s ++ t := by
  have hlast : isBlank (s.getLast hne) = false := by
    rwa [List.getLast?_eq_some_getLast hne] at hs
  have hmem := mem_dropWhile_isBlank (List.getLast_mem hne) hlast
  rw [trimStart, List.dropWhile_append, if_neg]
  · rfl
  · rw [List.isEmpty_iff]
    exact List.ne_nil_of_mem hmem

/-- The second word of a range is found where it leads, in the first expression or behind it. -/
theorem isSome_afterRangeWord? (hne : s ≠ []) (hs : s.getLast?.any isBlank = false)
    (last : List Char) :
    (afterRangeWord? (s ++ (" sampai ".toList ++ last))).isSome =
      leadsWith "sampai".toList (s ++ [' ']) := by
  obtain ⟨y, t, rfl⟩ := List.exists_cons_of_ne_nil hne
  by_cases hy : isBlank y = false
  · rw [List.cons_append, afterRangeWord?_eq_none hy, leadsWith]
    simp [hy]
  · rw [Bool.not_eq_false] at hy
    have hbehind (w : List Char) : after? "sampai".toList (trimStart (y :: t ++ ' ' :: w)) =
        (after? "sampai".toList (trimStart (y :: t))).map (· ++ ' ' :: w) := by
      rw [trimStart_append hne hs, after?_append_cons (by decide)]
    have htail : " sampai ".toList ++ last = ' ' :: ("sampai ".toList ++ last) := rfl
    have hhead : ((y :: t ++ ' ' :: ("sampai ".toList ++ last)).head?.map isBlank).getD false = true := hy
    have hhead' : (y :: t ++ [' ']).head?.any isBlank = true := hy
    rw [leadsWith, afterRangeWord?, htail, hbehind, hbehind, hhead, hhead']
    cases after? "sampai".toList (trimStart (y :: t)) with
    | none => rfl
    | some v =>
      have hrest : (trimStart (v ++ ' ' :: ("sampai ".toList ++ last))).isEmpty = false := by
        have hmem : 's' ∈ trimStart (v ++ ' ' :: ("sampai ".toList ++ last)) :=
          mem_dropWhile_isBlank (by simp) (by decide)
        exact List.isEmpty_eq_false_iff.2 (List.ne_nil_of_mem hmem)
      cases v with
      | nil => rfl
      | cons d v =>
        simp only [Option.map_some, Option.bind_eq_bind, Option.bind_some, hrest, ↓guard_bind]
        cases hd : isBlank d <;> simp [hd]

theorem standsIn_cons (hc : isBlank c = false) (word : List Char) :
    standsIn word (c :: s) = standsIn word s := by
  simp [standsIn, leadsWith, hc]

/-- The first expression of a range ends at the first place where its second word stands. -/
theorem cutRange?_eq_some (hs : (c :: s).getLast?.any isBlank = false) (hlast : IsExpr last)
    (hstands : standsIn "sampai".toList (s ++ [' ']) = false) :
    cutRange? (c :: s ++ (" sampai ".toList ++ last)) = some (c :: s, last) := by
  induction s generalizing c with
  | nil => rw [List.singleton_append, cutRange?, afterRangeWord?_eq_some hlast]
  | cons y s ih =>
    rw [List.cons_append, standsIn, Bool.or_eq_false_iff] at hstands
    have hend : (y :: s).getLast?.any isBlank = false := by rwa [List.getLast?_cons_cons] at hs
    have hnone := isSome_afterRangeWord? (List.cons_ne_nil y s) hend last
    rw [List.cons_append, List.cons_append, hstands.1, Option.isSome_eq_false_iff,
      Option.isNone_iff_eq_none] at hnone
    rw [List.cons_append, cutRange?, List.cons_append, hnone, ← List.cons_append, ih hend hstands.2]
    rfl

theorem exists_cutRange?_of_stands (hs : (c :: s).getLast?.any isBlank = false) (last : List Char)
    (hstands : standsIn "sampai".toList (s ++ [' ']) = true) :
    ∃ sides, cutRange? (c :: s ++ (" sampai ".toList ++ last)) = some sides ∧
      sides.1.length < (c :: s).length := by
  induction s generalizing c with
  | nil => cases hstands
  | cons y s ih =>
    have hend : (y :: s).getLast?.any isBlank = false := by rwa [List.getLast?_cons_cons] at hs
    have hfound := isSome_afterRangeWord? (List.cons_ne_nil y s) hend last
    rw [List.cons_append, cutRange?]
    cases hafter : afterRangeWord? (y :: s ++ (" sampai ".toList ++ last)) with
    | some behind => exact ⟨_, rfl, by simp⟩
    | none =>
      rw [hafter, List.cons_append] at hfound
      rw [List.cons_append, standsIn, ← hfound] at hstands
      obtain ⟨sides, hcut, hlength⟩ := ih hend hstands
      rw [hcut]
      exact ⟨_, rfl, Nat.succ_lt_succ hlength⟩

theorem word?_append {word : List Char} (hne : word ≠ []) (hn : ∀ c ∈ word, isWord c = true)
    (hc : ¬ isWord c = true) : word? (word ++ c :: s) = some (word, c :: s) := by
  rw [word?, List.takeWhile_append_of_pos hn, List.dropWhile_append_of_pos hn,
    List.takeWhile_cons_of_neg hc, List.dropWhile_cons_of_neg hc, List.append_nil]
  simp [hne]

/-- The name of a loop over a range is what stands behind the first word. -/
theorem range?_header (hname : IsName name) (hfirst : IsExpr first) (last : List Char) :
    range? (Span.header name (.range first last)) =
      (cutRange? (first ++ (" sampai ".toList ++ last))).map fun sides => (name, sides.1, sides.2) := by
  have hne : name.toList ≠ [] := fun heq => hname.1 (String.toList_inj.1 heq)
  obtain ⟨x, s, hxs⟩ := List.exists_cons_of_ne_nil hne
  have hx : isBlank x = false := hname.not_blank x (hxs ▸ List.mem_cons_self)
  obtain ⟨y, t, rfl, hy⟩ := hfirst.exists_cons
  let figures := t ++ (" sampai ".toList ++ last)
  let rest := "dari".toList ++ ' ' :: y :: figures
  have hline : Span.header name (.range (y :: t) last) =
      "untuk".toList ++ ' ' :: (name.toList ++ ' ' :: rest) := rfl
  have hword : word? (name.toList ++ ' ' :: rest) = some (name.toList, ' ' :: rest) :=
    word?_append hne (List.all_eq_true.1 hname.2) (by decide +kernel)
  have hstart : trimStart (' ' :: (name.toList ++ ' ' :: rest)) = name.toList ++ ' ' :: rest := by
    rw [hxs]
    exact trimStart_blank hx
  have hblank : ((' ' :: rest).head?.map isBlank).getD false = true := rfl
  have hrest : trimStart (' ' :: rest) = "dari".toList ++ ' ' :: y :: figures := rfl
  have hblanks : ((' ' :: y :: figures).takeWhile isBlank).length = 1 := by
    rw [List.takeWhile_cons_of_pos rfl, List.takeWhile_cons_of_neg (Bool.eq_false_iff.1 hy)]
    rfl
  simp only [range?, hline, after?_append, Option.bind_eq_bind, Option.bind_some, hstart, hword,
    ↓guard_bind, if_pos hblank]
  rw [hrest, after?_append, Option.bind_some, hblanks, String.ofList_toList]
  exact Option.map_eq_bind.symm

theorem ofLine_header_range_iff (hname : IsName name) (hfirst : IsExpr first) (hlast : IsExpr last) :
    LoopHeader.ofLine (Span.header name (.range first last)) = .over name (.range first last) ↔
      (Span.range first last).legible name = true := by
  have hfrom : occursIn " dari ".toList (Span.header name (.range first last)) = true :=
    occursIn_behind _ (occursIn_behind _ (occursIn_append ' ' _ [] _))
  have hto : occursIn " sampai ".toList (Span.header name (.range first last)) = true :=
    occursIn_behind _ (occursIn_behind _ (occursIn_behind _ (occursIn_behind _
      (occursIn_append ' ' _ [] _))))
  obtain ⟨c, s, rfl, hc⟩ := hfirst.exists_cons
  have hend := hfirst.not_blank_at_end
  rw [Span.legible, Bool.and_eq_true, Bool.not_eq_true', Bool.not_eq_true', List.cons_append,
    standsIn_cons hc, LoopHeader.ofLine, hfrom, hto, range?_header hname hfirst, occursIn]
  cases cut? " dalam ".toList (Span.header name (.range (c :: s) last)) with
  | some sides => exact ⟨fun h => (by cases h), fun h => (by cases h.1)⟩
  | none =>
    cases hstands : standsIn "sampai".toList (s ++ [' ']) with
    | false =>
      rw [cutRange?_eq_some hend hlast hstands]
      exact ⟨fun _ => ⟨rfl, rfl⟩, fun _ => rfl⟩
    | true =>
      obtain ⟨sides, hcut, hlength⟩ := exists_cutRange?_of_stands hend last hstands
      rw [hcut]
      refine ⟨fun h => ?_, fun h => (by cases h.2)⟩
      injection h with _ hspan
      injection hspan with hsame
      rw [hsame] at hlength
      exact absurd hlength (Nat.lt_irrefl _)

/-- **How headers are read.** The header of a counted loop is read as the loop that it is exactly if it is
legible. -/
theorem ofLine_header_iff {span : Span} (hname : IsName name) (hspan : ∀ expr ∈ span.exprs, IsExpr expr) :
    LoopHeader.ofLine (span.header name) = .over name span ↔ span.legible name = true := by
  cases span with
  | items expr => exact ofLine_header_items_iff hname (hspan expr (by simp [Span.exprs]))
  | range first last =>
    exact ofLine_header_range_iff hname (hspan first (by simp [Span.exprs]))
      (hspan last (by simp [Span.exprs]))

end Birokrasi.Extended
