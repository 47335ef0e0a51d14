import Birokrasi.Proofs.WholeDoubles
import Birokrasi.Value.Basic

/-!
# Equal numbers

Two numbers are equal exactly if their exact values are (`same_iff_exact`), whether they are integers or
doubles. A double has one mantissa and one exponent only (`eq_of_scaled`), so doubles of one exact value
are the same double, or both are zeros (`eq_or_zero_of_exact`).
-/

namespace Birokrasi.Decimal

open Float.Model (Format UnpackedFloat)
open Float.Model.UnpackedFloat

/-- The exact value of a number. -/
inductive Exact where
  | nan
  | infinite (negative : Bool)
  | rational (q : ℚ)

/-- The exact value of a double taken apart. -/
def Binary.exact : Binary → Exact
  | .nan => .nan
  | .infinite negative => .infinite negative
  | .finite negative m e => .rational (withSign negative m * 2 ^ e)

/-! ## Whole doubles -/

theorem scaled_eq_iff (n k : Int) (e : Int) :
    n * 2 ^ (-e).toNat = k * 2 ^ e.toNat ↔ (k : ℚ) * 2 ^ e = n := by
  by_cases he : 0 ≤ e
  · obtain ⟨j, rfl⟩ := Int.eq_ofNat_of_zero_le he
    rw [show (-(j : Int)).toNat = 0 by omega, Int.toNat_natCast, zpow_natCast, pow_zero, mul_one]
    exact ⟨fun h => by exact_mod_cast h.symm, fun h => by exact_mod_cast h.symm⟩
  · obtain ⟨j, rfl⟩ : ∃ j : Nat, e = -(j : Int) := ⟨(-e).toNat, by omega⟩
    have hpos : (0 : ℚ) < 2 ^ j := by positivity
    rw [show (- -(j : Int)).toNat = j by omega, show (-(j : Int)).toNat = 0 by omega, zpow_neg,
      zpow_natCast, pow_zero, mul_one, ← div_eq_mul_inv, div_eq_iff hpos.ne']
    exact ⟨fun h => by exact_mod_cast h.symm, fun h => by exact_mod_cast h.symm⟩

theorem whole_iff_exact {x : Float} {n : Int} :
    Whole x n ↔ (Binary.ofFloat x).exact = .rational n := by
  cases hx : Binary.ofFloat x with
  | nan => simp [Whole, compareInt?, hx, Binary.exact]
  | infinite negative => cases negative <;> simp [Whole, compareInt?, hx, Binary.exact]
  | finite negative m e =>
    rw [whole_of_finite hx, scaled_eq_iff, Binary.exact, Exact.rational.injEq]

/-! ## Doubles of one exact value -/

/-- A double has only one mantissa and one exponent. -/
theorem eq_of_scaled {m m' : Nat} {e e' : Int} (h : Normal m e ∨ m < 2 ^ 52 ∧ e = -1074)
    (h' : Normal m' e' ∨ m' < 2 ^ 52 ∧ e' = -1074) (heq : (m : ℚ) * 2 ^ e = m' * 2 ^ e') :
    m = m' ∧ e = e' := by
  wlog hle : e ≤ e' generalizing m m' e e'
  · have hsymm := this h' h heq.symm (by omega)
    exact ⟨hsymm.1.symm, hsymm.2.symm⟩
  obtain ⟨k, rfl⟩ : ∃ k : Nat, e' = e + k := ⟨(e' - e).toNat, by omega⟩
  have htwo : (2 : ℚ) ≠ 0 := two_ne_zero
  have hm : m = m' * 2 ^ k := by
    rw [zpow_add₀ htwo, zpow_natCast, mul_left_comm, mul_comm] at heq
    exact_mod_cast mul_left_cancel₀ (zpow_ne_zero e htwo) heq
  cases k with
  | zero => exact ⟨by simpa using hm, by simp⟩
  | succ k =>
    -- The larger exponent is not the least one, so its mantissa is long, and the other too long.
    have hleast : -1074 ≤ e := h.elim (·.least) fun hs => hs.2.ge
    have hhigh : m < 2 ^ 53 := h.elim (·.high) fun hs => by omega
    have hlow : 2 ^ 52 ≤ m' := h'.elim (·.low) fun hs => by omega
    have hpow : 2 ≤ 2 ^ (k + 1) := Nat.le_self_pow (by omega) 2
    have hlarge : 2 ^ 52 * 2 ≤ m' * 2 ^ (k + 1) := Nat.mul_le_mul hlow hpow
    omega

theorem isNegative_inj {s s' : Sign} (h : isNegative s = isNegative s') : s = s' := by
  cases s <;> cases s' <;> first | rfl | cases h

theorem eq_of_unpack_eq {x y : Float} (h : x.toModel.unpack = y.toModel.unpack) : x = y := by
  obtain ⟨⟨bits, hvalid⟩⟩ := x
  obtain ⟨⟨bits', hvalid'⟩⟩ := y
  have hbits : bits.toBitVec = bits'.toBitVec := (unpack_inj_of_valid hvalid hvalid').1 h
  cases UInt64.toBitVec_inj.1 hbits
  rfl

theorem scaled_pos {m : Nat} (hm : 0 < m) (e : Int) : (0 : ℚ) < m * 2 ^ e := by
  have : (0 : ℚ) < m := by exact_mod_cast hm
  positivity

/-- A positive and a negative mantissa never have one value. -/
theorem withSign_scaled_eq {negative negative' : Bool} {m m' : Nat} {e e' : Int} (hm : 0 < m)
    (hm' : 0 < m') (h : (withSign negative m : ℚ) * 2 ^ e = withSign negative' m' * 2 ^ e') :
    negative = negative' ∧ (m : ℚ) * 2 ^ e = m' * 2 ^ e' := by
  have hpos := scaled_pos hm e
  have hpos' := scaled_pos hm' e'
  cases negative <;> cases negative' <;>
    simp only [withSign, if_true, if_false, Bool.false_eq_true, Int.cast_neg, Int.cast_natCast,
      neg_mul, neg_inj] at h
  · exact ⟨rfl, h⟩
  · linarith
  · linarith
  · exact ⟨rfl, h⟩

theorem withSign_scaled_ne_zero {negative : Bool} {m : Nat} {e : Int} (hm : 0 < m) :
    (withSign negative m : ℚ) * 2 ^ e ≠ 0 := by
  have hpos := scaled_pos hm e
  cases negative <;>
    simp only [withSign, if_true, if_false, Bool.false_eq_true, Int.cast_neg, Int.cast_natCast, neg_mul]
  · exact hpos.ne'
  · exact (neg_neg_of_pos hpos).ne

theorem withSign_zero (negative : Bool) : withSign negative 0 = 0 := by
  cases negative <;> rfl

/-- Doubles of one exact value unpack to the same, or are zeros. -/
theorem unpack_eq_or_zero {x y : Float} (h : (Binary.ofFloat x).exact = (Binary.ofFloat y).exact) :
    x.toModel.unpack = y.toModel.unpack ∨
      ∃ s s', x.toModel.unpack = .zero s ∧ y.toModel.unpack = .zero s' := by
  have hx := Binary.ofFloat_eq x
  have hy := Binary.ofFloat_eq y
  cases hu : x.toModel.unpack with
  | notANumber =>
    cases hv : y.toModel.unpack with
    | notANumber => exact .inl rfl
    | _ => simp [hx, hy, hu, hv, Binary.ofUnpacked, Binary.exact] at h
  | infinity s =>
    cases hv : y.toModel.unpack with
    | infinity s' =>
      simp only [hx, hy, hu, hv, Binary.ofUnpacked, Binary.exact, Exact.infinite.injEq] at h
      rw [isNegative_inj h]
      exact .inl rfl
    | _ => simp [hx, hy, hu, hv, Binary.ofUnpacked, Binary.exact] at h
  | zero s =>
    cases hv : y.toModel.unpack with
    | zero s' => exact .inr ⟨s, s', rfl, rfl⟩
    | finite s' m' e' hm' =>
      simp only [hx, hy, hu, hv, Binary.ofUnpacked, Binary.exact, Exact.rational.injEq, withSign_zero,
        Int.cast_zero, zero_mul] at h
      exact absurd h.symm (withSign_scaled_ne_zero hm')
    | _ => simp [hx, hy, hu, hv, Binary.ofUnpacked, Binary.exact] at h
  | finite s m e hm =>
    cases hv : y.toModel.unpack with
    | zero s' =>
      simp only [hx, hy, hu, hv, Binary.ofUnpacked, Binary.exact, Exact.rational.injEq, withSign_zero,
        Int.cast_zero, zero_mul] at h
      exact absurd h (withSign_scaled_ne_zero hm)
    | finite s' m' e' hm' =>
      rw [hu, Binary.ofUnpacked] at hx
      rw [hv, Binary.ofUnpacked] at hy
      rw [hx, hy, Binary.exact, Binary.exact, Exact.rational.injEq] at h
      obtain ⟨hsign, hscaled⟩ := withSign_scaled_eq hm hm' h
      obtain ⟨rfl, rfl⟩ := eq_of_scaled (normal_or_small hx) (normal_or_small hy) hscaled
      rw [isNegative_inj hsign]
      exact .inl rfl
    | _ => simp [hx, hy, hu, hv, Binary.ofUnpacked, Binary.exact] at h

theorem exact_of_zero {x : Float} {s : Sign} (h : x.toModel.unpack = .zero s) :
    (Binary.ofFloat x).exact = .rational 0 := by
  rw [Binary.ofFloat_eq, h, Binary.ofUnpacked, Binary.exact, withSign_zero, Int.cast_zero, zero_mul]

theorem eq_or_zero_of_exact {x y : Float} (h : (Binary.ofFloat x).exact = (Binary.ofFloat y).exact) :
    x = y ∨ (Binary.ofFloat x).exact = .rational 0 := by
  rcases unpack_eq_or_zero h with heq | ⟨s, s', hs, -⟩
  · exact .inl (eq_of_unpack_eq heq)
  · exact .inr (exact_of_zero hs)

theorem beq_iff_unpack {x y : Float} :
    (x == y) = true ↔ x.toModel.unpack ≠ .notANumber ∧ (x.toModel.unpack = y.toModel.unpack ∨
      ∃ s s', x.toModel.unpack = .zero s ∧ y.toModel.unpack = .zero s') := by
  refine (beq_iff_ne_notANumber_and_eq x.toModel.unpack y.toModel.unpack).trans ⟨?_, ?_⟩
  · rintro ⟨hx, -, heq | ⟨hx', hy'⟩ | ⟨hx', hy'⟩⟩
    · exact ⟨hx, .inl heq⟩
    · exact ⟨hx, .inr ⟨_, _, hx', hy'⟩⟩
    · exact ⟨hx, .inr ⟨_, _, hx', hy'⟩⟩
  · rintro ⟨hx, heq | ⟨s, s', hs, hs'⟩⟩
    · exact ⟨hx, heq ▸ hx, .inl heq⟩
    · rw [hs, hs']
      cases s <;> cases s' <;> simp

theorem isNaN_iff_unpack {x : Float} : x.isNaN = true ↔ x.toModel.unpack = .notANumber := by
  show x.toModel.unpack.isNaN = true ↔ _
  cases x.toModel.unpack <;> simp [UnpackedFloat.isNaN]

/-- Doubles are equal, or both not a number, exactly if they have one exact value. -/
theorem floats_same_iff (x y : Float) :
    (x == y || (x.isNaN && y.isNaN)) = true ↔ (Binary.ofFloat x).exact = (Binary.ofFloat y).exact := by
  rw [Bool.or_eq_true, Bool.and_eq_true, beq_iff_unpack, isNaN_iff_unpack, isNaN_iff_unpack]
  constructor
  · rintro (⟨-, heq | ⟨s, s', hs, hs'⟩⟩ | ⟨hx, hy⟩)
    · rw [Binary.ofFloat_eq, Binary.ofFloat_eq, heq]
    · rw [exact_of_zero hs, exact_of_zero hs']
    · rw [Binary.ofFloat_eq, Binary.ofFloat_eq, hx, hy]
  · intro h
    have hcases := unpack_eq_or_zero h
    by_cases hx : x.toModel.unpack = .notANumber
    · rcases hcases with heq | ⟨s, s', hs, -⟩
      · exact .inr ⟨hx, heq ▸ hx⟩
      · cases hx.symm.trans hs
    · exact .inl ⟨hx, hcases⟩

end Birokrasi.Decimal

namespace Birokrasi

open Birokrasi.Decimal

/-! ## Equal values -/

/-- The exact value of a number. -/
def Number.exact : Number → Exact
  | .int n => .rational n
  | .float x => (Binary.ofFloat x).exact

theorem Number.int_equal_iff (n : Int) (a : Number) :
    (Number.int n).equal a = true ↔ (Number.int n).exact = a.exact := by
  rw [Number.equal, beq_iff_eq]
  cases a with
  | int m =>
    rw [Number.compare?, Option.some.injEq, Int.compare_eq_eq, Number.exact, Number.exact,
      Exact.rational.injEq, Int.cast_inj]
  | float x => exact whole_iff_exact.trans eq_comm

theorem Number.equal_int_iff (a : Number) (n : Int) :
    a.equal (.int n) = true ↔ a.exact = (Number.int n).exact := by
  cases a with
  | int m => exact Number.int_equal_iff m (.int n)
  | float x =>
    rw [Number.equal, beq_iff_eq, Number.compare?, Option.map_eq_some_iff]
    simp only [Ordering.swap_eq_eq, exists_eq_right]
    exact whole_iff_exact

/-- The exact value of a value that is a number. -/
def Value.exact? (v : Value) : Option Exact := v.number?.map Number.exact

/-- Values that are numbers are equal exactly if they have one exact value. -/
theorem Value.same_iff_exact {v w : Value} (hv : v.number?.isSome = true)
    (hw : w.number?.isSome = true) : v.same w = true ↔ v.exact? = w.exact? := by
  cases v with
  | bool | int =>
    cases w with
    | bool | int | float => exact (Number.int_equal_iff _ _).trans Option.some_inj.symm
    | _ => cases hw
  | float x =>
    cases w with
    | bool | int => exact (Number.equal_int_iff _ _).trans Option.some_inj.symm
    | float y => exact (floats_same_iff x y).trans Option.some_inj.symm
    | _ => cases hw
  | _ => cases hv

theorem Value.int_same_float {n : Int} {x : Float} :
    (Value.int n).same (.float x) = true ↔ Whole x n :=
  beq_iff_eq

theorem Value.float_same_int {n : Int} {x : Float} :
    (Value.float x).same (.int n) = true ↔ Whole x n :=
  (Number.equal_int_iff (.float x) n).trans whole_iff_exact.symm

theorem Value.float_same_float {x y : Float} :
    (Value.float x).same (.float y) = true ↔ x = y ∨ Whole x 0 ∧ Whole y 0 := by
  rw [whole_iff_exact, whole_iff_exact]
  refine (floats_same_iff x y).trans ?_
  constructor
  · intro h
    refine (eq_or_zero_of_exact h).imp_right fun hzero => ?_
    rw [Int.cast_zero]
    exact ⟨hzero, h.symm.trans hzero⟩
  · rintro (rfl | ⟨hx, hy⟩)
    · rfl
    · exact hx.trans hy.symm

end Birokrasi
