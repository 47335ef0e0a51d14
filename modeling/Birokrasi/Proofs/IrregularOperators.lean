import Birokrasi.Proofs.ExpressionTrees

/-!
# Where it matters how an expression is cut

For operators that are not regular there are operands with which cutting does not give the usual value
(`differs_of_not_regular`). There are three reasons. In arithmetic, ones show a second minus sign, and a
two before and after a division shows that it is made too early. Comparisons have the usual value zero
or one, and cutting at an operator of arithmetic gives other values, or values that do not depend on the
last comparison. Comparisons alone are told apart by their last operand.
-/

namespace Birokrasi.Calculation

variable {ops as bs : List Operator} {o : Operator} {k : Int}

/-- With some operands, cutting does not give the usual value. -/
def Differs (ops : List Operator) : Prop :=
  ∃ c : Chain Int, c.ops = ops ∧ c.reading.value id ≠ c.usual.value id

/-! ## Ones -/

/-- A chain of ones, after a first operand. -/
def ones (k : Int) (ops : List Operator) : Chain Int := ⟨k, ops.map (·, 1)⟩

@[simp] theorem ops_ones : (ones k ops).ops = ops := by
  simp [ones, Chain.ops, Function.comp_def]

theorem ones_append : ones k (as ++ o :: bs) = (ones k as).join o (ones 1 bs) := by
  simp [ones, Chain.join]

theorem Operator.apply_one (h : o.level = 2) : o.apply k 1 = some k := by
  cases o with
  | mul => simp [apply]
  | div => simp [apply]
  | _ => cases h

/-- A product with ones is its first operand. -/
theorem value_reading_ones (h : ∀ p ∈ ops, p.level = 2) :
    (ones k ops).reading.value id = some k := by
  induction ops using cut_induction generalizing k with
  | nil => rfl
  | cut as o bs has hbs ihl ihr =>
    simp only [List.forall_mem_append, List.forall_mem_cons] at h
    rw [ones_append, reading_join (by simpa using has) (by simpa using hbs), Tree.value, ihl h.1,
      ihr h.2.2]
    exact o.apply_one h.2.1

/-- What comes of a value when operators are applied to it one after the other. -/
def steps (a : Option Int) (rest : List (Operator × Int)) : Option Int :=
  rest.foldl (fun a s => s.1.on a (some s.2)) a

theorem steps_append (a : Option Int) (rest rest' : List (Operator × Int)) :
    steps a (rest ++ rest') = steps (steps a rest) rest' := List.foldl_append

theorem steps_ones (a : Option Int) (h : ∀ p ∈ ops, p.level = 2) : steps a (ops.map (·, 1)) = a := by
  induction ops with
  | nil => rfl
  | cons p ops ih =>
    rw [List.forall_mem_cons] at h
    have hone : p.on a (some 1) = a := by
      cases a with
      | none => rfl
      | some k => exact p.apply_one h.1
    show steps (p.on a (some 1)) _ = a
    rw [hone, ih h.2]

theorem usual_concat {α : Type} {c : Chain α} {x : α} (h : ∀ p ∈ c.ops, o.level ≤ p.level) :
    (c.join o ⟨x, []⟩).usual = .node o c.usual (.leaf x) :=
  usual_join h fun _ hq => absurd hq List.not_mem_nil

/-- A product is taken from the left. -/
theorem value_usual_product {c : Chain Int} (h : ∀ p ∈ c.ops, p.level = 2) :
    c.usual.value id = steps (some c.first) c.rest := by
  obtain ⟨first, rest⟩ := c
  induction rest using List.reverseRecOn with
  | nil => rfl
  | append_singleton rest s ih =>
    have hjoin : Chain.mk first (rest ++ [s]) = (Chain.mk first rest).join s.1 ⟨s.2, []⟩ := rfl
    rw [hjoin, Chain.ops_join, List.forall_mem_append, List.forall_mem_cons] at h
    rw [hjoin, usual_concat fun p hp => by rw [h.1 p hp, h.2.1], Tree.value, ih h.1]
    exact (steps_append (some first) rest [s]).symm

theorem value_usual_ones (h : ∀ p ∈ ops, p.level = 2) : (ones k ops).usual.value id = some k := by
  rw [value_usual_product (by simpa using h)]
  exact steps_ones (some k) h

/-! ## Products -/

theorem divided_cut (has : Divided as) (hbs : Divided bs) (ho : o ≠ .div)
    (hnext : o.level = 1 ∨ bs.head? ≠ some .div) : Divided (as ++ o :: bs) := by
  refine List.isChain_append.2 ⟨has, List.isChain_cons.2 ⟨?_, hbs⟩, ?_⟩
  · rintro q hq rfl
    exact hnext.resolve_right (absurd hq)
  · intro p _ q hq hdiv
    cases hq
    exact absurd hdiv ho

theorem eq_of_level {p : Operator} (h : p.level = 2) : p = .mul ∨ p = .div := by
  cases p with
  | mul => exact .inl rfl
  | div => exact .inr rfl
  | _ => cases h

theorem mul_on_one (a : Option Int) :
    Operator.mul.on a (some 1) = a ∧ Operator.mul.on (some 1) a = a := by
  cases a <;> simp [Operator.on, Operator.apply]

/-- A factor in front changes nothing if it is one. -/
theorem value_usual_factor {r : Chain Int} (has : ∀ p ∈ as, p.level = 2)
    (hr : ∀ p ∈ r.ops, p.level = 2) : ((ones 1 as).join .mul r).usual.value id = r.usual.value id := by
  have hall : ∀ p ∈ ((ones 1 as).join .mul r).ops, p.level = 2 := by
    simp only [Chain.ops_join, ops_ones, List.forall_mem_append, List.forall_mem_cons]
    exact ⟨has, rfl, hr⟩
  rw [value_usual_product hall, value_usual_product hr]
  show steps (some 1) (as.map (·, 1) ++ (.mul, r.first) :: r.rest) = _
  rw [steps_append, steps_ones _ has]
  exact congrArg (steps · r.rest) (mul_on_one (some r.first)).2

/-- Ones behind a product change nothing. -/
theorem value_usual_append_ones {l : Chain Int} (hl : ∀ p ∈ l.ops, p.level = 2) (ho : o.level = 2)
    (hbs : ∀ p ∈ bs, p.level = 2) : (l.join o (ones 1 bs)).usual.value id = l.usual.value id := by
  have hall : ∀ p ∈ (l.join o (ones 1 bs)).ops, p.level = 2 := by
    simp only [Chain.ops_join, ops_ones, List.forall_mem_append, List.forall_mem_cons]
    exact ⟨hl, ho, hbs⟩
  have hones : ∀ p ∈ o :: bs, p.level = 2 := List.forall_mem_cons.2 ⟨ho, hbs⟩
  rw [value_usual_product hall, value_usual_product hl]
  show steps (some l.first) (l.rest ++ (o :: bs).map (·, 1)) = _
  rw [steps_append, steps_ones _ hones]

/-- `1 / 2`, and ones. -/
theorem value_reading_half (h : ∀ q ∈ bs, q = .mul) :
    (Chain.join ⟨1, []⟩ .div (ones 2 bs)).reading.value id = some 0 := by
  cases bs with
  | nil => rfl
  | cons p bs =>
    obtain ⟨rfl, hbs⟩ := List.forall_mem_cons.1 h
    have hjoin : Chain.join ⟨1, []⟩ .div (ones 2 (.mul :: bs)) =
        (Chain.mk 1 [(.div, 2)]).join .mul (ones 1 bs) := rfl
    have hlevel : ∀ q ∈ bs, q.level = 2 := fun q hq => by rw [hbs q hq]; rfl
    rw [hjoin, reading_join, Tree.value, value_reading_ones hlevel]
    · rfl
    · decide
    · intro q hq
      rw [ops_ones] at hq
      rw [hbs q hq]

/-- `2 * 1 / 2`. -/
theorem differs_of_mul_div (has : ∀ p ∈ as, p = .div) (hbs : ∀ q ∈ bs, q = .mul) :
    Differs (as ++ .mul :: .div :: bs) := by
  have has₂ : ∀ p ∈ as, p.level = 2 := fun p hp => by rw [has p hp]; rfl
  have hbs₂ : ∀ p ∈ bs, p.level = 2 := fun p hp => by rw [hbs p hp]; rfl
  have hops : ((ones 2 as).join .mul (Chain.join ⟨1, []⟩ .div (ones 2 bs))).ops =
      as ++ .mul :: .div :: bs := by
    rw [Chain.ops_join, Chain.ops_join, ops_ones, ops_ones]
    rfl
  refine ⟨_, hops, ?_⟩
  have hreading : ((ones 2 as).join .mul (Chain.join ⟨1, []⟩ .div (ones 2 bs))).reading.value id =
      some 0 := by
    rw [reading_join, Tree.value, value_reading_ones has₂, value_reading_half hbs]
    · rfl
    · intro p hp
      rw [ops_ones] at hp
      rw [has p hp]
      decide
    · intro q hq
      rw [Chain.ops_join, ops_ones] at hq
      rcases List.mem_cons.1 hq with rfl | hq
      · decide
      · rw [hbs q hq]
  have husual : ((ones 2 as).join .mul (Chain.join ⟨1, []⟩ .div (ones 2 bs))).usual.value id =
      some 1 := by
    rw [value_usual_product]
    · show steps (some 2) (as.map (·, 1) ++ (.mul, 1) :: (.div, 2) :: bs.map (·, 1)) = _
      rw [steps_append, steps_ones _ has₂]
      exact steps_ones (some 1) hbs₂
    · rw [hops]
      simp only [List.forall_mem_append, List.forall_mem_cons]
      exact ⟨has₂, rfl, rfl, hbs₂⟩
  rw [hreading, husual]
  decide

/-- `1 / 2 / 2`. -/
theorem differs_of_div_div (hbs : ∀ q ∈ bs, q = .div) : Differs (.div :: .div :: bs) := by
  have hbs₂ : ∀ p ∈ bs, p.level = 2 := fun p hp => by rw [hbs p hp]; rfl
  have hops : (Chain.join ⟨1, []⟩ .div (.join ⟨2, []⟩ .div (ones 2 bs))).ops = .div :: .div :: bs := by
    rw [Chain.ops_join, Chain.ops_join, ops_ones]
    rfl
  have hrank : ∀ q ∈ bs, Operator.div.rank ≤ q.rank := fun q hq => by rw [hbs q hq]
  refine ⟨_, hops, ?_⟩
  have hreading : (Chain.join ⟨1, []⟩ .div (.join ⟨2, []⟩ .div (ones 2 bs))).reading.value id =
      some 1 := by
    rw [reading_join, reading_join, Tree.value, Tree.value, value_reading_ones hbs₂]
    · rfl
    · exact fun _ hp => absurd hp List.not_mem_nil
    · rwa [ops_ones]
    · exact fun _ hp => absurd hp List.not_mem_nil
    · rw [Chain.ops_join, ops_ones]
      exact List.forall_mem_cons.2 ⟨Nat.le_refl _, hrank⟩
  have husual : (Chain.join ⟨1, []⟩ .div (.join ⟨2, []⟩ .div (ones 2 bs))).usual.value id =
      some 0 := by
    rw [value_usual_product]
    · exact steps_ones (some 0) hbs₂
    · rw [hops]
      simp only [List.forall_mem_cons]
      exact ⟨rfl, rfl, hbs₂⟩
  rw [hreading, husual]
  decide

/-- In a product, a division that is not at its beginning is made too early. -/
theorem differs_of_product (hops : ∀ p ∈ ops, p.level = 2) (h : ¬ Divided ops) : Differs ops := by
  induction ops using cut_induction with
  | nil => exact absurd .nil h
  | cut as o bs has hbs ihl ihr =>
    obtain ⟨has₂, ho, hbs₂⟩ : (∀ p ∈ as, p.level = 2) ∧ o.level = 2 ∧ ∀ p ∈ bs, p.level = 2 := by
      simpa only [List.forall_mem_append, List.forall_mem_cons] using hops
    rcases eq_of_level ho with rfl | rfl
    · by_cases hright : Divided bs
      · by_cases hleft : Divided as
        · by_cases hnext : bs.head? = some .div
          · obtain ⟨bs, rfl⟩ := List.head?_eq_some_iff.1 hnext
            have hnone := div_not_mem hright rfl (List.forall_mem_cons.1 hbs₂).2
            refine differs_of_mul_div (fun p hp => ?_) fun q hq => ?_
            · refine (eq_of_level (has₂ p hp)).resolve_left ?_
              rintro rfl
              exact absurd (has _ hp) (by decide)
            · refine (eq_of_level (hbs₂ q (List.mem_cons_of_mem _ hq))).resolve_right ?_
              rintro rfl
              exact hnone hq
          · exact absurd (divided_cut hleft hright (by decide) (.inr hnext)) h
        · obtain ⟨l, rfl, hne⟩ := ihl has₂ hleft
          refine ⟨l.join .mul (ones 1 bs), by simp, ?_⟩
          rw [reading_join has (by simpa using hbs), Tree.value, value_reading_ones hbs₂,
            (mul_on_one _).1, value_usual_append_ones has₂ rfl hbs₂]
          exact hne
      · obtain ⟨r, rfl, hne⟩ := ihr hbs₂ hright
        refine ⟨(ones 1 as).join .mul r, by simp, ?_⟩
        rw [reading_join (by simpa using has) hbs, Tree.value, value_reading_ones has₂,
          (mul_on_one _).2, value_usual_factor has₂ hbs₂]
        exact hne
    · -- With no product left, all operators are divisions.
      have hdiv : ∀ q ∈ bs, q = .div := by
        intro q hq
        rcases eq_of_level (hbs₂ q hq) with rfl | rfl
        · exact absurd (hbs _ hq) (by decide)
        · rfl
      have hnil : as = [] := by
        refine List.eq_nil_iff_forall_not_mem.2 fun p hp => ?_
        rcases eq_of_level (has₂ p hp) with rfl | rfl
        · exact absurd (has _ hp) (by decide)
        · exact absurd (has _ hp) (by decide)
      subst hnil
      cases bs with
      | nil => exact absurd (.singleton _) h
      | cons q bs =>
        obtain ⟨rfl, hds⟩ := List.forall_mem_cons.1 hdiv
        exact differs_of_div_div hds

/-! ## Sums -/

/-- The usual value of ones. -/
def balance (ops : List Operator) : Int := 1 + ops.count .add - ops.count .sub

theorem balance_append : balance (as ++ o :: bs) = balance as + balance bs - 1 +
    (if o = .add then 1 else 0) - if o = .sub then 1 else 0 := by
  simp only [balance, List.count_append, List.count_cons, beq_iff_eq]
  split <;> split <;> omega

theorem balance_of_product (h : ∀ p ∈ ops, p.level = 2) : balance ops = 1 := by
  have hadd : ops.count .add = 0 := List.count_eq_zero.2 fun hmem => absurd (h _ hmem) (by decide)
  have hsub : ops.count .sub = 0 := List.count_eq_zero.2 fun hmem => absurd (h _ hmem) (by decide)
  rw [balance, hadd, hsub]
  rfl

theorem value_usual_ones_sum (h : ∀ p ∈ ops, 0 < p.level) :
    (ones 1 ops).usual.value id = some (balance ops) := by
  induction hn : ops.length using Nat.strongRecOn generalizing ops with
  | ind n ih =>
    subst hn
    by_cases hsum : ∃ q ∈ ops, q.level = 1
    · obtain ⟨as, q, bs, rfl, hq, hbs⟩ := exists_last_cut hsum
      simp only [List.forall_mem_append, List.forall_mem_cons] at h
      have hbs₂ : ∀ p ∈ bs, p.level = 2 := by
        intro p hp
        have hpos := h.2.2 p hp
        have hne := hbs p hp
        have hmost := p.level_le_two
        omega
      have hleft := ih as.length (by simp) h.1 rfl
      rw [ones_append, usual_join (fun p hp => ?_) (fun p hp => ?_), Tree.value, hleft,
        value_usual_ones hbs₂, balance_append, balance_of_product hbs₂]
      · cases q with
        | add =>
          show some (balance as + 1) = _
          simp
        | sub =>
          show some (balance as - 1) = _
          simp
        | _ => cases hq
      · rw [ops_ones] at hp
        have hpos := h.1 p hp
        omega
      · rw [ops_ones] at hp
        rw [hq, hbs₂ p hp]
        decide
    · have hall : ∀ p ∈ ops, p.level = 2 := by
        intro p hp
        have hpos := h p hp
        have hne : p.level ≠ 1 := fun hone => hsum ⟨p, hp, hone⟩
        have hmost := p.level_le_two
        omega
      rw [value_usual_ones hall, balance_of_product hall]

theorem filter_product (h : ∀ p ∈ ops, p.level = 2) : ops.filter (·.level = 1) = [] := by
  rw [List.filter_eq_nil_iff]
  intro p hp
  rw [h p hp]
  decide

theorem signed_of_product (h : ∀ p ∈ ops, p.level = 2) : Signed ops := by
  rw [Signed, filter_product h]
  exact .nil

theorem level_eq_two {p : Operator} (h : 0 < p.level) (hrank : 2 ≤ p.rank) : p.level = 2 := by
  revert h hrank
  cases p <;> decide

theorem rank_le_of_cut (has : ∀ p ∈ as, o.rank < p.rank) (hbs : ∀ q ∈ bs, o.rank ≤ q.rank) :
    ∀ p ∈ as ++ o :: bs, o.rank ≤ p.rank := by
  simp only [List.forall_mem_append, List.forall_mem_cons]
  exact ⟨fun p hp => Nat.le_of_lt (has p hp), Nat.le_refl _, hbs⟩

/-- Nothing but products is left when a product is cut. -/
theorem product_of_cut (h : ∀ p ∈ as ++ o :: bs, 0 < p.level) (has : ∀ p ∈ as, o.rank < p.rank)
    (hbs : ∀ q ∈ bs, o.rank ≤ q.rank) (ho : o.level = 2) : ∀ p ∈ as ++ o :: bs, p.level = 2 := by
  have hrank : 2 ≤ o.rank := by
    rcases eq_of_level ho with rfl | rfl
    · decide
    · decide
  intro p hp
  exact level_eq_two (h p hp) (Nat.le_trans hrank (rank_le_of_cut has hbs p hp))

theorem signed_add : Signed (as ++ .add :: bs) ↔ Signed as ∧ Signed bs := by
  refine ⟨fun h => ?_, fun h => ?_⟩
  · exact ⟨(signed_append h).1, signed_tail (signed_append h).2⟩
  · rw [Signed, List.filter_append, List.filter_cons_of_pos (by decide)]
    refine List.isChain_append.2 ⟨h.1, List.isChain_cons.2 ⟨?_, h.2⟩, ?_⟩
    · rintro q _ ⟨hadd, -⟩
      cases hadd
    · rintro p _ q hq ⟨-, rfl⟩
      cases hq

theorem product_of_no_sum (h : ∀ p ∈ ops, 0 < p.level) (hadd : .add ∉ ops) (hsub : .sub ∉ ops) :
    ∀ p ∈ ops, p.level = 2 := by
  intro p hp
  have hpos := h p hp
  cases p with
  | add => exact absurd hp hadd
  | sub => exact absurd hp hsub
  | mul | div => rfl
  | _ => exact absurd hpos (by decide)

/-- A product minus what has no plus, all of ones. -/
theorem balance_sub {w : Int} (has : ∀ p ∈ as, p.level = 2) (hbs : ∀ p ∈ bs, 0 < p.level)
    (hadd : .add ∉ bs) (hw : (ones 1 bs).reading.value id = some w) (hunit : w = 0 ∨ w = 1) :
    balance (as ++ .sub :: bs) ≤ 1 - w ∧
      (1 - w = balance (as ++ .sub :: bs) ↔ Signed (as ++ .sub :: bs)) := by
  have hbalance : balance (as ++ .sub :: bs) = - bs.count .sub := by
    rw [balance_append, balance_of_product has, balance, List.count_eq_zero.2 hadd,
      if_neg (by decide), if_pos rfl]
    omega
  rw [hbalance]
  refine ⟨by omega, fun heq => ?_, fun hsigned => ?_⟩
  · have hcount : bs.count .sub = 0 := by omega
    have hproduct := product_of_no_sum hbs hadd (List.count_eq_zero.1 hcount)
    rw [Signed, List.filter_append, filter_product has, List.filter_cons_of_pos (by decide),
      filter_product hproduct]
    exact .singleton _
  · have hsub := sub_not_mem (signed_append hsigned).2 hadd
    rw [value_reading_ones (product_of_no_sum hbs hadd hsub)] at hw
    cases hw
    rw [List.count_eq_zero.2 hsub]
    rfl

/-- Cutting ones gives at least the usual value, and just that if the minus signs are apart. -/
theorem exists_value_reading_ones (h : ∀ p ∈ ops, 0 < p.level) :
    ∃ v, (ones 1 ops).reading.value id = some v ∧ balance ops ≤ v ∧
      (v = balance ops ↔ Signed ops) ∧ (.add ∉ ops → v = 0 ∨ v = 1) := by
  induction ops using cut_induction with
  | nil => exact ⟨1, rfl, by decide, iff_of_true rfl .nil, fun _ => .inr rfl⟩
  | cut as o bs has hbs ihl ihr =>
    by_cases hproduct : ∀ p ∈ as ++ o :: bs, p.level = 2
    · refine ⟨1, value_reading_ones hproduct, ?_⟩
      rw [balance_of_product hproduct]
      exact ⟨Int.le_refl 1, iff_of_true rfl (signed_of_product hproduct), fun _ => .inr rfl⟩
    · have hcut := product_of_cut h has hbs
      simp only [List.forall_mem_append, List.forall_mem_cons] at h
      obtain ⟨u, hu, hule, husigned, -⟩ := ihl h.1
      obtain ⟨w, hw, hwle, hwsigned, hunit⟩ := ihr h.2.2
      have hvalue : (ones 1 (as ++ o :: bs)).reading.value id = o.apply u w := by
        rw [ones_append, reading_join (by simpa using has) (by simpa using hbs), Tree.value, hu, hw]
        rfl
      rw [hvalue]
      cases o with
      | add =>
        have hbalance : balance (as ++ .add :: bs) = balance as + balance bs := by
          rw [balance_append, if_pos rfl, if_neg (by decide)]
          omega
        refine ⟨u + w, rfl, by omega, ?_, fun hadd => absurd (by simp) hadd⟩
        rw [signed_add, ← husigned, ← hwsigned]
        omega
      | sub =>
        have has₂ : ∀ p ∈ as, p.level = 2 := fun p hp => level_eq_two (h.1 p hp) (has p hp)
        have hadd : .add ∉ bs := fun hmem => absurd (hbs _ hmem) (by decide)
        obtain rfl : u = 1 := by
          rw [value_reading_ones has₂] at hu
          exact (Option.some.inj hu).symm
        obtain ⟨hle, hsigned⟩ := balance_sub has₂ h.2.2 hadd hw (hunit hadd)
        refine ⟨1 - w, rfl, hle, hsigned, fun _ => ?_⟩
        have hw₂ := hunit hadd
        omega
      | mul | div => exact absurd (hcut rfl) hproduct
      | _ => exact absurd h.2.1 (by decide)

theorem exists_value_ones (h : ∀ p ∈ ops, 0 < p.level) (hsigned : Signed ops) :
    ∃ v, (ones 1 ops).reading.value id = some v ∧ (ones 1 ops).usual.value id = some v := by
  obtain ⟨v, hv, -, hiff, -⟩ := exists_value_reading_ones h
  exact ⟨v, hv, by rw [value_usual_ones_sum h, hiff.2 hsigned]⟩

theorem Operator.on_ne {x y : Option Int} (ho : o.level = 1) (k : Int) (h : x ≠ y) :
    o.on x (some k) ≠ o.on y (some k) ∧ o.on (some k) x ≠ o.on (some k) y := by
  cases o with
  | add | sub => cases x <;> cases y <;> simp_all [on, apply]
  | _ => cases ho

/-- Where a sum is cut, what follows may be applied first. -/
theorem absorbs_of_signed (ho : o.level = 1) (h : Signed (o :: bs)) (hpos : ∀ q ∈ bs, 0 < q.level)
    (hbs : ∀ q ∈ bs, o.rank ≤ q.rank) : ∀ q ∈ bs, o.level < q.level ∨ o.Absorbs q := by
  intro q hq
  have hlevel := hpos q hq
  cases o with
  | add =>
    cases q with
    | add => exact .inr Operator.add_absorbs_add
    | sub => exact .inr Operator.add_absorbs_sub
    | mul | div => exact .inl (by decide)
    | _ => exact absurd hlevel (by decide)
  | sub =>
    have hadd : .add ∉ bs := fun hmem => absurd (hbs _ hmem) (by decide)
    left
    rw [product_of_no_sum hpos hadd (sub_not_mem h hadd) q hq]
    decide
  | _ => cases ho

/-- A division that is not at the beginning of its product makes a difference in a sum as well. -/
theorem differs_of_not_divided (hops : ∀ p ∈ ops, 0 < p.level) (hsigned : Signed ops)
    (h : ¬ Divided ops) : Differs ops := by
  induction ops using cut_induction with
  | nil => exact absurd .nil h
  | cut as o bs has hbs ihl ihr =>
    by_cases hproduct : ∀ p ∈ as ++ o :: bs, p.level = 2
    · exact differs_of_product hproduct h
    have ho : o.level = 1 := by
      have hne : o.level ≠ 2 := fun htwo => hproduct (product_of_cut hops has hbs htwo)
      have hpos := hops o (by simp)
      have hmost := o.level_le_two
      omega
    simp only [List.forall_mem_append, List.forall_mem_cons] at hops
    obtain ⟨hleft, hrest⟩ := signed_append hsigned
    have hright := signed_tail hrest
    have hweak : ∀ p ∈ as, o.level ≤ p.level := fun p hp => by rw [ho]; exact hops.1 p hp
    have habsorbs := absorbs_of_signed ho hrest hops.2.2 hbs
    by_cases hdivided : Divided as
    · have hlate : ¬ Divided bs := by
        intro hdivided'
        refine h (divided_cut hdivided hdivided' ?_ (.inl ho))
        rintro rfl
        cases ho
      obtain ⟨r, rfl, hne⟩ := ihr hops.2.2 hright hlate
      obtain ⟨v, hreading, husual⟩ := exists_value_ones hops.1 hleft
      refine ⟨(ones 1 as).join o r, by simp, ?_⟩
      rw [reading_join (by simpa using has) hbs, Tree.value,
        value_usual_join (by simpa using hweak) habsorbs, hreading, husual]
      exact (Operator.on_ne ho v hne).2
    · obtain ⟨l, rfl, hne⟩ := ihl hops.1 hleft hdivided
      obtain ⟨v, hreading, husual⟩ := exists_value_ones hops.2.2 hright
      refine ⟨l.join o (ones 1 bs), by simp, ?_⟩
      rw [reading_join has (by simpa using hbs), Tree.value,
        value_usual_join hweak (by simpa using habsorbs), hreading, husual]
      exact (Operator.on_ne ho v hne).1

/-- In arithmetic, minus signs or divisions that are not regular make a difference. -/
theorem differs_of_arithmetic (hops : ∀ p ∈ ops, 0 < p.level) (h : ¬ Balanced ops) : Differs ops := by
  by_cases hsigned : Signed ops
  · exact differs_of_not_divided hops hsigned fun hdivided => h ⟨hops, hsigned, hdivided⟩
  · refine ⟨ones 1 ops, ops_ones, ?_⟩
    obtain ⟨v, hv, -, hiff, -⟩ := exists_value_reading_ones hops
    rw [hv, value_usual_ones_sum hops]
    intro heq
    exact hsigned (hiff.1 (Option.some.inj heq))

/-! ## Comparisons -/

/-- The values of comparisons. -/
def bits : List Int := [0, 1]

section Comparisons

variable {t : Tree Int}

theorem Operator.apply_of_comparison (h : o.level = 0) (a b : Int) :
    ∃ k ∈ bits, o.apply a b = some k := by
  cases o with
  | eq | lt | gt =>
    refine ⟨_, ?_, rfl⟩
    split
    · exact List.mem_cons_of_mem _ List.mem_cons_self
    · exact List.mem_cons_self
  | _ => cases h

theorem Operator.exists_apply {a b : Int} (h : o = .div → b ≠ 0) : ∃ k, o.apply a b = some k := by
  cases o with
  | div => exact ⟨_, if_neg (h rfl)⟩
  | _ => exact ⟨_, rfl⟩

/-- The usual rules divide by operands only. -/
theorem Tree.Usual.exists_value (h : t.Usual) (hne : ∀ x ∈ t.chain.operands, x ≠ 0) :
    ∃ k, t.value id = some k := by
  induction h with
  | leaf x => exact ⟨x, rfl⟩
  | @node o l r hl hr hol hor ihl ihr =>
    simp only [Tree.chain, Chain.operands_join, List.forall_mem_append] at hne
    obtain ⟨a, ha⟩ := ihl hne.1
    obtain ⟨b, hb⟩ := ihr hne.2
    have hdiv : o = .div → b ≠ 0 := by
      rintro rfl
      cases r with
      | leaf x =>
        cases hb
        exact hne.2 x List.mem_cons_self
      | node p _ _ =>
        have hlt := hor p rfl
        have hmost := p.level_le_two
        exact absurd hlt (Nat.not_lt.2 hmost)
    obtain ⟨k, hk⟩ := Operator.exists_apply hdiv
    refine ⟨k, ?_⟩
    rw [Tree.value, ha, hb]
    exact hk

/-- With a comparison, the usual value is zero or one. -/
theorem value_of_comparison {c : Chain Int} (hne : ∀ x ∈ c.operands, x ≠ 0)
    (h : ∃ q ∈ c.ops, q.level = 0) : ∃ k ∈ bits, c.usual.value id = some k := by
  obtain ⟨q, hq, hlevel⟩ := h
  have hchain : c.usual.chain = c := chain_tree c
  obtain ⟨k, hk⟩ := (usual_usual c).exists_value (by rwa [hchain])
  cases ht : c.usual with
  | leaf x =>
    rw [← hchain, ht] at hq
    cases hq
  | node o l r =>
    have hle : o.level ≤ q.level := (usual_usual c).level_le (by rw [ht]; rfl) (by rwa [hchain])
    rw [ht] at hk
    obtain ⟨a, -, hab⟩ := Option.bind_eq_some_iff.1 hk
    obtain ⟨b, -, hb⟩ := Option.bind_eq_some_iff.1 hab
    obtain ⟨k', hbit, hk'⟩ := o.apply_of_comparison (by omega) a b
    cases hb.symm.trans hk'
    exact ⟨k, hbit, hk⟩

theorem Tree.exists_value_of_comparisons (h : ∀ q ∈ t.chain.ops, q.level = 0) :
    ∃ k, t.value id = some k := by
  induction t with
  | leaf x => exact ⟨x, rfl⟩
  | node o l r ihl ihr =>
    simp only [Tree.chain, Chain.ops_join, List.forall_mem_append, List.forall_mem_cons] at h
    obtain ⟨a, ha⟩ := ihl h.1
    obtain ⟨b, hb⟩ := ihr h.2.2
    rw [Tree.value, ha, hb]
    refine Operator.exists_apply ?_
    rintro rfl
    cases h.2.1

/-- Comparisons alone are zero or one, however they are cut. -/
theorem Tree.value_of_comparisons (h : ∀ q ∈ t.chain.ops, q.level = 0) (hne : t.chain.ops ≠ []) :
    ∃ k ∈ bits, t.value id = some k := by
  cases t with
  | leaf x => exact absurd rfl hne
  | node o l r =>
    simp only [Tree.chain, Chain.ops_join, List.forall_mem_append, List.forall_mem_cons] at h
    obtain ⟨a, ha⟩ := l.exists_value_of_comparisons h.1
    obtain ⟨b, hb⟩ := r.exists_value_of_comparisons h.2.2
    rw [Tree.value, ha, hb]
    exact o.apply_of_comparison h.2.1 a b

end Comparisons

/-! ## Comparisons and arithmetic -/

/-- The value comes of operands other than zero when the chain is cut. -/
def Attains (ops : List Operator) (k : Int) : Prop :=
  ∃ c : Chain Int, c.ops = ops ∧ (∀ x ∈ c.operands, x ≠ 0) ∧ c.reading.value id = some k

theorem exists_reading_cut {a b : Int} (has : ∀ p ∈ as, o.rank < p.rank)
    (hbs : ∀ q ∈ bs, o.rank ≤ q.rank) (ha : Attains as a) (hb : Attains bs b) :
    ∃ c : Chain Int, c.ops = as ++ o :: bs ∧ (∀ x ∈ c.operands, x ≠ 0) ∧
      c.reading.value id = o.apply a b := by
  obtain ⟨l, rfl, hl, hla⟩ := ha
  obtain ⟨r, rfl, hr, hrb⟩ := hb
  refine ⟨l.join o r, Chain.ops_join, ?_, ?_⟩
  · rw [Chain.operands_join, List.forall_mem_append]
    exact ⟨hl, hr⟩
  · rw [reading_join has hbs, Tree.value, hla, hrb]
    rfl

theorem ne_zero_of_mem_ones : ∀ x ∈ (ones 1 ops).operands, x ≠ 0 := by
  intro x hx
  simp only [ones, Chain.operands, List.map_map, List.mem_cons, List.mem_map] at hx
  rcases hx with rfl | ⟨p, -, rfl⟩
  · decide
  · exact Int.one_ne_zero

theorem Operator.level_pos_of_rank_le {p : Operator} (h : o.rank ≤ p.rank) (hp : 0 < p.level) :
    0 < o.level := by
  revert h hp
  cases o <;> cases p <;> decide

/-- Other values, among them one. -/
def signs : List Int := [1, -1, 2]

theorem Operator.exists_range (o : Operator) : ∀ first ∈ [bits, signs], ∀ second ∈ [bits, signs],
    ∃ values ∈ [bits, signs], (values = bits → first = bits ∨ second = bits ∨ o.level < 2) ∧
      ∀ k ∈ values, ∃ a ∈ first, ∃ b ∈ second, o.apply a b = some k := by
  cases o <;> decide

/-- However a chain is cut, its values are at least zero and one, or else one, minus one and two; the
latter if it is a product. -/
theorem exists_range (ops : List Operator) : ∃ values ∈ [bits, signs],
    (values = bits → ∃ q ∈ ops, q.level < 2) ∧ ∀ k ∈ values, Attains ops k := by
  induction ops using cut_induction with
  | nil =>
    refine ⟨signs, by simp, fun h => absurd h (by decide), fun k hk => ⟨⟨k, []⟩, rfl, ?_, rfl⟩⟩
    rintro x hx rfl
    cases List.mem_singleton.1 hx
    revert hk
    decide
  | cut as o bs has hbs ihl ihr =>
    obtain ⟨first, hfirst, hlow, hleft⟩ := ihl
    obtain ⟨second, hsecond, hlow', hright⟩ := ihr
    obtain ⟨values, hvalues, hsmall, hall⟩ := o.exists_range first hfirst second hsecond
    refine ⟨values, hvalues, fun h => ?_, fun k hk => ?_⟩
    · rcases hsmall h with h | h | h
      · obtain ⟨q, hq, hlevel⟩ := hlow h
        exact ⟨q, by simp [hq], hlevel⟩
      · obtain ⟨q, hq, hlevel⟩ := hlow' h
        exact ⟨q, by simp [hq], hlevel⟩
      · exact ⟨o, by simp, h⟩
    · obtain ⟨a, ha, b, hb, hk⟩ := hall k hk
      obtain ⟨c, hc, hne, hvalue⟩ := exists_reading_cut has hbs (hleft a ha) (hright b hb)
      exact ⟨c, hc, hne, hvalue.trans hk⟩

theorem Operator.exists_outside (o : Operator) (h : 0 < o.level) :
    ∀ first ∈ [bits, signs], ∀ second ∈ [bits, signs],
      (∃ a ∈ first, ∃ b ∈ second, ∀ k ∈ bits, o.apply a b ≠ some k) ∨
        o = .mul ∧ first = bits ∧ second = bits := by
  revert h
  cases o <;> decide

theorem Operator.exists_apply_eq_one (h : o.level = 0) (a : Int) : ∃ b, o.apply a b = some 1 := by
  cases o with
  | eq => exact ⟨a, congrArg some (if_pos rfl)⟩
  | lt => exact ⟨a + 1, congrArg some (if_pos (by omega))⟩
  | gt => exact ⟨a - 1, congrArg some (if_pos (by omega))⟩
  | _ => cases h

/-- A factor of zero hides the last comparison. -/
theorem differs_of_hidden (hzero : Attains as 0) (has : ∀ p ∈ as, Operator.mul.rank < p.rank)
    (hbs : ∀ q ∈ bs, Operator.mul.rank ≤ q.rank) (hcmp : ∃ q ∈ bs, q.level = 0) :
    Differs (as ++ .mul :: bs) := by
  obtain ⟨bs, q, ps, rfl, hq, hps⟩ := exists_last_cut hcmp
  obtain ⟨l, rfl, hl, hvalue⟩ := hzero
  have hps₂ : ∀ p ∈ ps, p.level = 2 := by
    intro p hp
    have hne := hps p hp
    exact level_eq_two (by omega) (hbs p (by simp [hp]))
  have hne : ∀ x ∈ (l.join .mul (ones 1 bs)).operands, x ≠ 0 := by
    rw [Chain.operands_join, List.forall_mem_append]
    exact ⟨hl, ne_zero_of_mem_ones⟩
  have hchain : (l.join .mul (ones 1 bs)).usual.chain = l.join .mul (ones 1 bs) := chain_tree _
  obtain ⟨a, ha⟩ := (usual_usual (l.join .mul (ones 1 bs))).exists_value (by rwa [hchain])
  obtain ⟨b, hb⟩ := Operator.exists_apply_eq_one hq a
  refine ⟨(l.join .mul (ones 1 bs)).join q (ones b ps), by simp, ?_⟩
  have husual : ((l.join .mul (ones 1 bs)).join q (ones b ps)).usual.value id = some 1 := by
    rw [usual_join, Tree.value, ha, value_usual_ones hps₂]
    · exact hb
    · intro p _
      omega
    · intro p hp
      rw [ops_ones] at hp
      have hlevel := hps₂ p hp
      omega
  have hreading : ((l.join .mul (ones 1 bs)).join q (ones b ps)).reading.value id ≠ some 1 := by
    rw [← Chain.join_assoc, reading_join has (by simpa using hbs), Tree.value, hvalue]
    cases ((ones 1 bs).join q (ones b ps)).reading.value id with
    | none => exact Option.some_ne_none 1 ∘ Eq.symm
    | some k => simp [Operator.on, Operator.apply]
  rw [husual]
  exact hreading

/-- Comparisons and arithmetic together make a difference. -/
theorem differs_of_mixed (hcmp : ∃ q ∈ ops, q.level = 0) (harith : ∃ p ∈ ops, 0 < p.level) :
    Differs ops := by
  have hnil : ops ≠ [] := by
    rintro rfl
    simp at hcmp
  obtain ⟨as, o, bs, rfl, has, hbs⟩ := exists_first_cut hnil
  have ho : 0 < o.level := by
    obtain ⟨p, hp, hpos⟩ := harith
    exact Operator.level_pos_of_rank_le (rank_le_of_cut has hbs p hp) hpos
  obtain ⟨first, hfirst, -, hleft⟩ := exists_range as
  obtain ⟨second, hsecond, hlow, hright⟩ := exists_range bs
  rcases o.exists_outside ho first hfirst second hsecond with
    ⟨a, ha, b, hb, hnot⟩ | ⟨rfl, rfl, rfl⟩
  · obtain ⟨c, hc, hne, hvalue⟩ := exists_reading_cut has hbs (hleft a ha) (hright b hb)
    obtain ⟨k, hk, husual⟩ := value_of_comparison hne (by rwa [hc])
    refine ⟨c, hc, ?_⟩
    rw [hvalue, husual]
    exact hnot k hk
  · refine differs_of_hidden (hleft 0 (by decide)) has hbs ?_
    obtain ⟨q, hq, hlevel⟩ := hlow rfl
    refine ⟨q, hq, Nat.eq_zero_of_not_pos fun hpos => ?_⟩
    have htwo := level_eq_two hpos (hbs q hq)
    omega

/-! ## Comparisons alone -/

theorem Operator.exists_bits (h : o.level = 0) :
    ∀ k ∈ bits, ∃ a ∈ bits, ∃ b ∈ bits, o.apply a b = some k := by
  revert h
  cases o <;> decide

theorem exists_reading_of_comparisons (h : ∀ q ∈ ops, q.level = 0) {k : Int} (hk : k ∈ bits) :
    ∃ c : Chain Int, c.ops = ops ∧ c.reading.value id = some k := by
  induction ops using cut_induction generalizing k with
  | nil => exact ⟨⟨k, []⟩, rfl, rfl⟩
  | cut as o bs has hbs ihl ihr =>
    simp only [List.forall_mem_append, List.forall_mem_cons] at h
    obtain ⟨a, ha, b, hb, hvalue⟩ := Operator.exists_bits h.2.1 k hk
    obtain ⟨l, rfl, hl⟩ := ihl h.1 ha
    obtain ⟨r, rfl, hr⟩ := ihr h.2.2 hb
    refine ⟨l.join o r, Chain.ops_join, ?_⟩
    rw [reading_join has hbs, Tree.value, hl, hr]
    exact hvalue

/-- Comparisons tell integers apart. -/
theorem Operator.exists_apply_ne (h : o.level = 0) {a b : Int} (hab : a ≠ b) :
    ∃ k, o.apply a k ≠ o.apply b k := by
  cases o with
  | eq => exact ⟨a, by simp [apply, hab.symm]⟩
  | lt =>
    rcases Int.lt_or_gt_of_ne hab with hlt | hgt
    · exact ⟨b, by simp [apply, hlt]⟩
    · exact ⟨a, by simp [apply, hgt]⟩
  | gt =>
    rcases Int.lt_or_gt_of_ne hab with hlt | hgt
    · exact ⟨a, by simp [apply, hlt]⟩
    · exact ⟨b, by simp [apply, hgt]⟩
  | _ => cases h

theorem sublist_concat (h : as.Sublist [.gt, .lt, .eq]) (ho : o.level = 0)
    (has : ∀ p ∈ as, o.rank < p.rank) : (as ++ [o]).Sublist [.gt, .lt, .eq] := by
  have hfilter : as.filter (o.rank < ·.rank) = as :=
    List.filter_eq_self.2 fun p hp => decide_eq_true (has p hp)
  have hleft : as.Sublist ([.gt, .lt, .eq].filter (o.rank < ·.rank)) := by
    rw [← hfilter]
    exact h.filter _
  refine (hleft.append (List.Sublist.refl [o])).trans ?_
  revert ho
  cases o <;> decide

/-- A last operand far off makes the usual value the same whatever comes before it, and then a first
operand makes another value of the chain that is cut. -/
theorem Operator.exists_last {o q : Operator} (ho : o.level = 0) (hq : q.level = 0)
    (h : o.rank ≤ q.rank) : ∃ k ∈ [(5 : Int), -5], ∃ u ∈ bits, (∀ a ∈ bits, q.apply a k = some u) ∧
      ∀ b ∈ bits, ∃ a ∈ bits, o.apply a b ≠ some u := by
  revert ho hq h
  cases o <;> cases q <;> decide

theorem differs_of_last {q : Operator} (has₀ : ∀ p ∈ as, p.level = 0) (ho : o.level = 0)
    (hbs₀ : ∀ p ∈ bs, p.level = 0) (hq : q.level = 0) (has : ∀ p ∈ as, o.rank < p.rank)
    (hbs : ∀ p ∈ bs ++ [q], o.rank ≤ p.rank) : Differs (as ++ o :: (bs ++ [q])) := by
  obtain ⟨k, -, u, -, hlast, hfirst⟩ := Operator.exists_last ho hq (hbs q (by simp))
  have hops : ((ones 1 bs).join q ⟨k, []⟩).ops = bs ++ [q] := by
    rw [Chain.ops_join, ops_ones]
    rfl
  obtain ⟨b, hb, hright⟩ : ∃ b ∈ bits, ((ones 1 bs).join q ⟨k, []⟩).reading.value id = some b := by
    have hchain : ((ones 1 bs).join q ⟨k, []⟩).reading.chain = (ones 1 bs).join q ⟨k, []⟩ := chain_tree _
    refine Tree.value_of_comparisons ?_ ?_
    · rw [hchain, hops, List.forall_mem_append, List.forall_mem_singleton]
      exact ⟨hbs₀, hq⟩
    · rw [hchain, hops]
      exact List.concat_ne_nil q bs
  obtain ⟨a, ha, hne⟩ := hfirst b hb
  obtain ⟨l, rfl, hleft⟩ := exists_reading_of_comparisons has₀ ha
  obtain ⟨d, hd, hbefore⟩ : ∃ d ∈ bits, (l.join o (ones 1 bs)).usual.value id = some d := by
    have hchain : (l.join o (ones 1 bs)).usual.chain = l.join o (ones 1 bs) := chain_tree _
    refine Tree.value_of_comparisons ?_ ?_
    · rw [hchain, Chain.ops_join, ops_ones, List.forall_mem_append, List.forall_mem_cons]
      exact ⟨has₀, ho, hbs₀⟩
    · rw [hchain, Chain.ops_join]
      exact List.append_ne_nil_of_right_ne_nil _ (List.cons_ne_nil _ _)
  refine ⟨l.join o ((ones 1 bs).join q ⟨k, []⟩), by rw [Chain.ops_join, hops], ?_⟩
  have husual : (l.join o ((ones 1 bs).join q ⟨k, []⟩)).usual.value id = some u := by
    rw [Chain.join_assoc, usual_concat fun p _ => by omega, Tree.value, hbefore]
    exact hlast d hd
  rw [husual, reading_join has (by rwa [hops]), Tree.value, hleft, hright]
  exact hne

/-- Of comparisons that are not in the order of `Regular` the last operand makes a difference. -/
theorem differs_of_comparisons (hops : ∀ q ∈ ops, q.level = 0) (h : ¬ ops.Sublist [.gt, .lt, .eq]) :
    Differs ops := by
  induction ops using cut_induction with
  | nil => exact absurd (List.nil_sublist _) h
  | cut as o bs has hbs ihl ihr =>
    have hlevels := hops
    simp only [List.forall_mem_append, List.forall_mem_cons] at hlevels
    obtain ⟨has₀, ho, hbs₀⟩ := hlevels
    rcases List.eq_nil_or_concat bs with rfl | ⟨bs, q, rfl⟩
    · obtain ⟨l, rfl, hne⟩ := ihl has₀ fun hsub => h (sublist_concat hsub ho has)
      have hreading : l.reading.chain = l := chain_tree l
      have husual : l.usual.chain = l := chain_tree l
      obtain ⟨a, ha⟩ := l.reading.exists_value_of_comparisons (by rwa [hreading])
      obtain ⟨b, hb⟩ := l.usual.exists_value_of_comparisons (by rwa [husual])
      rw [ha, hb] at hne
      obtain ⟨k, hk⟩ := Operator.exists_apply_ne ho fun hab => hne (congrArg some hab)
      refine ⟨l.join o ⟨k, []⟩, Chain.ops_join, ?_⟩
      rw [reading_join (r := ⟨k, []⟩) has hbs, usual_concat fun p _ => by omega, Tree.value,
        Tree.value, ha, hb]
      exact hk
    · rw [List.concat_eq_append] at hbs hbs₀ ⊢
      rw [List.forall_mem_append, List.forall_mem_singleton] at hbs₀
      exact differs_of_last has₀ ho hbs₀.1 hbs₀.2 has hbs

/-- Operators that are not regular make a difference for some operands. -/
theorem differs_of_not_regular (h : ¬ Regular ops) : Differs ops := by
  rw [Regular, not_or] at h
  by_cases hcmp : ∃ q ∈ ops, q.level = 0
  · by_cases harith : ∃ p ∈ ops, 0 < p.level
    · exact differs_of_mixed hcmp harith
    · refine differs_of_comparisons (fun q hq => ?_) h.2
      exact Nat.eq_zero_of_not_pos fun hpos => harith ⟨q, hq, hpos⟩
  · refine differs_of_arithmetic (fun p hp => ?_) h.1
    exact Nat.pos_of_ne_zero fun hzero => hcmp ⟨p, hp, hzero⟩

end Birokrasi.Calculation
