import Birokrasi.Decimal.Root
import Birokrasi.Proofs.WholeDoubles

/-!
# The integer part of a square root

The square root of an integer is rounded to the nearest double, and rounding may take it up to the next
integer. Below `2 ^ 52` it does not: the root of a number that is no square lies below the next integer by
more than half a unit in the last place (`root_gap`), so that the integer part of the double is that of the
exact root (`truncate?_sqrt`).
-/

namespace Birokrasi.Decimal

/-! ## Integer square roots -/

/-- The root that is found lies between the one so far and the bits that are still to be tried. -/
theorem rootFrom_eq {n bits root : Nat} (hlow : root * root ≤ n)
    (hhigh : n < (root + 2 ^ bits) * (root + 2 ^ bits)) : rootFrom n bits root = n.sqrt := by
  induction bits generalizing root with
  | zero => exact Nat.eq_sqrt.2 ⟨hlow, hhigh⟩
  | succ bits ih =>
    rw [rootFrom, Nat.one_shiftLeft]
    split
    next hnext =>
      refine ih hnext ?_
      rwa [Nat.add_assoc, ← Nat.mul_two, ← Nat.pow_succ]
    next hnext => exact ih hlow (Nat.not_le.1 hnext)

theorem natSqrt_eq (n : Nat) : natSqrt n = n.sqrt := by
  refine rootFrom_eq (Nat.zero_le n) ?_
  rw [Nat.zero_add, ← Nat.pow_add]
  calc n < 2 ^ (n.log2 + 1) := Nat.lt_log2_self
    _ ≤ 2 ^ (n.log2 / 2 + 1 + (n.log2 / 2 + 1)) := Nat.pow_le_pow_right (by decide) (by omega)

/-! ## Rounding over a power of two -/

theorem roundDiv_lt {num den t : Nat} (hden : 0 < den) (h : 2 * num + den < 2 * (t * den)) :
    roundDiv num den < t := by
  have hdiv := Nat.div_add_mod num den
  have hmod := Nat.mod_lt num hden
  have hround : 2 * (roundDiv num den * den) ≤ 2 * num + den := by
    unfold roundDiv
    dsimp only
    split
    · rw [Nat.mul_comm _ den]
      omega
    · have hup : (num / den + 1) * den = den * (num / den) + den := by
        rw [Nat.add_mul, Nat.one_mul, Nat.mul_comm]
      split
      · omega
      · split
        · rw [Nat.mul_comm _ den]
          omega
        · omega
  have hlt : roundDiv num den * den < t * den := by omega
  exact Nat.lt_of_mul_lt_mul_right hlt

/-- A fraction over a power of two is scaled so that its mantissa has fifty-three bits. -/
theorem nearest?_over_two_pow {num j p : Nat} (hnum : num ≠ 0) (hlog : num.log2 + p = 52 + j)
    (hp : p ≤ 1074) :
    nearest? false num (2 ^ j) = pack? false (roundDiv (num * 2 ^ p) (2 ^ j)) (-(p : Int)) := by
  have he : (num.log2 : Int) - ((2 ^ j).log2 : Int) - 53 = -((p + 1 : Nat) : Int) := by
    rw [Nat.log2_two_pow]
    omega
  have hlarge : ¬ num * 2 ^ (p + 1) / 2 ^ j < 1 <<< 53 := by
    rw [Nat.one_shiftLeft, Nat.not_lt, Nat.le_div_iff_mul_le (Nat.two_pow_pos j), ← Nat.pow_add]
    calc 2 ^ (53 + j) = 2 ^ num.log2 * 2 ^ (p + 1) := by
          rw [← Nat.pow_add]
          congr 1
          omega
      _ ≤ num * 2 ^ (p + 1) := Nat.mul_le_mul_right _ (Nat.log2_self_le hnum)
  have hexp : max (-((p + 1 : Nat) : Int) + 1) (-1074) = -(p : Int) := by omega
  unfold nearest?
  rw [if_neg hnum]
  simp only [he, overPower_neg num (2 ^ j) rfl, if_neg hlarge, hexp]

theorem truncate?_of_finite {x : Float} {m p : Nat}
    (hx : Binary.ofFloat x = .finite false m (-(p : Int))) :
    truncate? x = some ((m / 2 ^ p : Nat) : Int) := by
  unfold truncate?
  rw [hx]
  cases p with
  | zero => simp
  | succ p =>
    have hneg : ¬ (0 : Int) ≤ -((p + 1 : Nat) : Int) := by omega
    simp only [if_neg hneg, Int.neg_neg, Int.toNat_natCast, Nat.shiftRight_eq_div_pow,
      Bool.false_eq_true, if_false]

/-- The integer part of what is packed. A mantissa that has been rounded up to one bit more is shifted. -/
theorem truncate?_pack? {m p : Nat} (hlow : 2 ^ 52 ≤ m) (hhigh : m ≤ 2 ^ 53) (hpos : 0 < p)
    (hp : p ≤ 1074) :
    ∃ x, pack? false m (-(p : Int)) = some x ∧ truncate? x = some ((m / 2 ^ p : Nat) : Int) := by
  rcases Nat.lt_or_eq_of_le hhigh with hlt | rfl
  · have hnormal : Normal m (-(p : Int)) := ⟨hlow, hlt, by omega, by omega⟩
    obtain ⟨x, hx, hparts⟩ := hnormal.pack? false
    exact ⟨x, hx, truncate?_of_finite hparts⟩
  · obtain ⟨p, rfl⟩ : ∃ q, p = q + 1 := ⟨p - 1, by omega⟩
    have hnormal : Normal (2 ^ 52) (-(p : Int)) := ⟨Nat.le_refl _, by decide, by omega, by omega⟩
    obtain ⟨x, hx, hparts⟩ := hnormal.pack? false
    refine ⟨x, ?_, ?_⟩
    · rw [pack?_carry, ← hx]
      congr 1
      omega
    · rw [truncate?_of_finite hparts, Nat.pow_succ 2 52, Nat.pow_succ 2 p,
        Nat.mul_div_mul_right _ _ (by decide)]

/-- Rounding keeps the integer part of a fraction over a power of two that is not too near to the next
integer. -/
theorem truncate?_nearest? {num j s : Nat} (hpos : 0 < s) (hs : s < 2 ^ 26) (hlow : s * 2 ^ j ≤ num)
    (hgap : 2 ^ 28 * num + 2 ^ j < 2 ^ 28 * ((s + 1) * 2 ^ j)) :
    ∃ x, nearest? false num (2 ^ j) = some x ∧ truncate? x = some (s : Int) := by
  have hj := Nat.two_pow_pos j
  have hnum : num ≠ 0 := Nat.ne_of_gt (Nat.lt_of_lt_of_le (Nat.mul_pos hpos hj) hlow)
  have hlogLow : j ≤ num.log2 := by
    refine (Nat.le_log2 hnum).2 (Nat.le_trans ?_ hlow)
    exact Nat.le_mul_of_pos_left _ hpos
  have hlogHigh : num.log2 < 26 + j := by
    refine (Nat.log2_lt hnum).2 ?_
    have hnext : (s + 1) * 2 ^ j ≤ 2 ^ 26 * 2 ^ j := Nat.mul_le_mul_right _ hs
    rw [Nat.pow_add]
    omega
  obtain ⟨p, hp⟩ : ∃ p, num.log2 + p = 52 + j := ⟨52 + j - num.log2, by omega⟩
  -- The mantissa before it is rounded.
  have hscaledLow : s * 2 ^ p ≤ num * 2 ^ p / 2 ^ j := by
    rw [Nat.le_div_iff_mul_le hj, Nat.mul_right_comm]
    exact Nat.mul_le_mul_right _ hlow
  have hleast : 2 ^ 52 ≤ num * 2 ^ p / 2 ^ j := by
    rw [Nat.le_div_iff_mul_le hj, ← Nat.pow_add, ← hp, Nat.pow_add]
    exact Nat.mul_le_mul_right _ (Nat.log2_self_le hnum)
  have hmost : num * 2 ^ p / 2 ^ j < 2 ^ 53 := by
    rw [Nat.div_lt_iff_lt_mul hj, ← Nat.pow_add, show 53 + j = num.log2 + 1 + p by omega, Nat.pow_add]
    exact Nat.mul_lt_mul_of_pos_right Nat.lt_log2_self (Nat.two_pow_pos p)
  obtain ⟨hge, hle⟩ := le_roundDiv (num * 2 ^ p) (2 ^ j)
  obtain ⟨x, hx, htruncate⟩ := truncate?_pack? (Nat.le_trans hleast hge) (by omega) (p := p)
    (by omega) (by omega)
  refine ⟨x, by rw [nearest?_over_two_pow hnum hp (by omega), hx], ?_⟩
  have hupper : roundDiv (num * 2 ^ p) (2 ^ j) < (s + 1) * 2 ^ p := by
    refine roundDiv_lt hj ?_
    obtain ⟨q, rfl⟩ : ∃ q, p = 27 + q := ⟨p - 27, by omega⟩
    calc 2 * (num * 2 ^ (27 + q)) + 2 ^ j
      _ ≤ (2 ^ 28 * num + 2 ^ j) * 2 ^ q := by
        rw [Nat.add_mul, Nat.pow_add]
        have hone : 2 ^ j ≤ 2 ^ j * 2 ^ q := Nat.le_mul_of_pos_right _ (Nat.two_pow_pos q)
        linarith
      _ < 2 ^ 28 * ((s + 1) * 2 ^ j) * 2 ^ q := Nat.mul_lt_mul_of_pos_right hgap (Nat.two_pow_pos q)
      _ = 2 * ((s + 1) * 2 ^ (27 + q) * 2 ^ j) := by ring
  rw [htruncate, Nat.div_eq_of_lt_le (Nat.le_trans hscaledLow hge) hupper]

/-! ## Roots of integers -/

theorem sqrt_lt_of_lt {n : Nat} (hn : n < 2 ^ 52) : n.sqrt < 2 ^ 26 := Nat.sqrt_lt.2 hn

/-- A root of `n` in steps of `1 / scale` lies below the next integer by more than half a unit in the
last place: the squares of the two differ by the square of the scale at least. -/
theorem root_gap {n r scale : Nat} (hn : n < 2 ^ 52) (hscale : 2 ^ 27 < scale)
    (hr : r * r ≤ n * (scale * scale)) :
    2 ^ 28 * (2 * r + 1) + 2 * scale < 2 ^ 28 * ((n.sqrt + 1) * (2 * scale)) := by
  obtain ⟨t, ht⟩ : ∃ t, t = (n.sqrt + 1) * scale := ⟨_, rfl⟩
  have hsquares : r * r + scale * scale ≤ t * t :=
    calc r * r + scale * scale
      _ ≤ (n + 1) * (scale * scale) := by rw [Nat.succ_mul]; omega
      _ ≤ (n.sqrt + 1) * (n.sqrt + 1) * (scale * scale) :=
        Nat.mul_le_mul_right _ (Nat.lt_succ_sqrt n)
      _ = t * t := by rw [ht, Nat.mul_mul_mul_comm]
  have hlt : r < t := Nat.mul_self_lt_mul_self_iff.1 (by nlinarith)
  obtain ⟨d, rfl⟩ : ∃ d, t = r + d := ⟨t - r, by omega⟩
  have hscaled : r + d ≤ 2 ^ 26 * scale := by
    rw [ht]
    exact Nat.mul_le_mul_right _ (sqrt_lt_of_lt hn)
  have hdistance : scale ≤ 2 ^ 27 * d := by
    refine Nat.le_of_mul_le_mul_right (c := scale) ?_ (by omega)
    calc scale * scale
      _ ≤ d * (2 * r + d) := by nlinarith
      _ ≤ d * (2 * (2 ^ 26 * scale)) := Nat.mul_le_mul_left d (by omega)
      _ = 2 ^ 27 * d * scale := by ring
  calc 2 ^ 28 * (2 * r + 1) + 2 * scale
    _ < 2 ^ 28 * (2 * (r + d)) := by omega
    _ = 2 ^ 28 * ((n.sqrt + 1) * (2 * scale)) := by rw [ht, Nat.mul_left_comm 2]

theorem truncate?_sqrtFraction {n : Nat} (k : Nat) (hpos : 0 < n) (hn : n < 2 ^ 52) :
    truncate? (sqrtFraction (n * 2 ^ k) (2 ^ k)) = some (n.sqrt : Int) := by
  obtain ⟨scale, hscale⟩ : ∃ scale, scale = 2 ^ (60 + (k + 1)) := ⟨_, rfl⟩
  obtain ⟨r, hr⟩ : ∃ r, r = (n * (scale * scale)).sqrt := ⟨_, rfl⟩
  have hquotient : (n * 2 ^ k) <<< (2 * (60 + (k + 1))) / 2 ^ k = n * (scale * scale) := by
    rw [Nat.shiftLeft_eq, Nat.mul_right_comm, Nat.mul_div_cancel _ (Nat.two_pow_pos k), hscale,
      ← Nat.pow_add, Nat.two_mul]
  have hlarge : 2 ^ 27 < scale := by
    rw [hscale]
    exact Nat.pow_lt_pow_right (by decide) (by omega)
  have hroot : n.sqrt * scale ≤ r := by
    rw [hr, Nat.le_sqrt, Nat.mul_mul_mul_comm]
    exact Nat.mul_le_mul_right _ (Nat.sqrt_le n)
  have hgap := root_gap hn hlarge (hr ▸ Nat.sqrt_le _)
  -- What is left over counts as a half of the last step at most.
  have hrounded (sticky : Nat) (hsticky : sticky ≤ 1) :
      truncate? ((nearest? false (2 * r + sticky) (2 ^ (60 + (k + 1) + 1))).getD 0.0) =
        some (n.sqrt : Int) := by
    have hdouble : 2 ^ (60 + (k + 1) + 1) = 2 * scale := by rw [Nat.pow_succ, hscale, Nat.mul_comm]
    have hlow : n.sqrt * 2 ^ (60 + (k + 1) + 1) ≤ 2 * r + sticky := by
      rw [hdouble, Nat.mul_left_comm]
      omega
    obtain ⟨x, hx, htruncate⟩ := truncate?_nearest? (Nat.sqrt_pos.2 hpos) (sqrt_lt_of_lt hn) hlow
      (by rw [hdouble]; omega)
    rw [hx, Option.getD_some, htruncate]
  unfold sqrtFraction
  simp only [Nat.log2_two_pow, hquotient, natSqrt_eq, ← hr, Nat.one_shiftLeft]
  refine hrounded _ ?_
  split <;> omega

/-- A whole double as a fraction: its denominator is a power of two that its numerator has as well. -/
theorem Whole.fraction? {x : Float} {n : Nat} (h : Whole x n) (hpos : 0 < n) :
    ∃ k, Decimal.fraction? x = some (((n * 2 ^ k : Nat) : Int), 2 ^ k) := by
  obtain ⟨m, e, hx, hvalue⟩ := h.eq_of_pos hpos
  refine ⟨(-e).toNat, ?_⟩
  unfold Decimal.fraction? scaled
  rw [hx, hvalue]
  by_cases he : 0 ≤ e
  · have hzero : (-e).toNat = 0 := by omega
    simp only [if_pos he, hzero, Nat.shiftLeft_eq, Nat.pow_zero, Bool.false_eq_true, if_false]
  · have hzero : e.toNat = 0 := by omega
    simp only [if_neg he, hzero, Nat.one_shiftLeft, Nat.pow_zero, Nat.mul_one, Bool.false_eq_true,
      if_false]

/-- The integer part of the square root of a whole double is that of the exact root. -/
theorem Whole.truncate?_sqrt {x : Float} {n : Nat} (h : Whole x n) (hpos : 0 < n) (hn : n < 2 ^ 52) :
    Decimal.truncate? (sqrt x) = some (n.sqrt : Int) := by
  obtain ⟨k, hk⟩ := h.fraction? hpos
  have hnum : (0 : Int) < ((n * 2 ^ k : Nat) : Int) := by
    exact_mod_cast Nat.mul_pos hpos (Nat.two_pow_pos k)
  unfold sqrt
  rw [hk]
  simp only [if_neg (Int.not_lt.2 hnum.le), if_neg hnum.ne', Int.toNat_natCast]
  exact truncate?_sqrtFraction k hpos hn

end Birokrasi.Decimal
