import Birokrasi.Proofs.Outcome
import Birokrasi.Value.Number
import Mathlib

/-!
# Whole doubles

A double whose exact value is an integer (`Whole`) is ordered as that integer is, and its integer part is
that integer. Up to the fifty-third power of two every integer has such a double (`exists_ofInt?`), and
one less than such a double is one again (`Whole.sub_one`): counting down loses nothing.

Doubles are taken apart in two ways, by their bits and by unpacking. Both give the same parts
(`Binary.ofFloat_eq`), and the normal ones come back as they were when they have been packed
(`Normal.unpack_pack`).
-/

namespace Birokrasi.Decimal

open Float.Model (Format UnpackedFloat totalExponent)
open Float.Model.UnpackedFloat

/-! ## Parts -/

/-- Whether a sign is the negative one. -/
def isNegative : Sign → Bool
  | .negative => true
  | .positive => false

section Fields

variable (b : BitVec Format.binary64.numBits)

theorem toNat_unpackMantissa : (@unpackMantissa .binary64 b).toNat = b.toNat % 2 ^ 52 := by
  simp [unpackMantissa, BitVec.extractLsb_toNat]

theorem toNat_unpackExponent :
    (@unpackExponent .binary64 b).toNat = b.toNat / 2 ^ 52 % 2048 := by
  simp [unpackExponent, BitVec.extractLsb_toNat, Nat.shiftRight_eq_div_pow]

theorem toNat_unpackSign : (@unpackSign .binary64 b).toNat = b.toNat / 2 ^ 63 % 2 := by
  simp [unpackSign, BitVec.extractLsb_toNat, Nat.shiftRight_eq_div_pow]

end Fields


theorem isNegative_ofBitVec (b : BitVec 1) : isNegative (Sign.ofBitVec b) = decide (b.toNat = 1) := by
  have hlt := b.isLt
  unfold Sign.ofBitVec
  by_cases hb : b = 0#1
  · subst hb
    rfl
  · have hne : b.toNat ≠ 0 := fun h => hb (BitVec.eq_of_toNat_eq h)
    have hone : b.toNat = 1 := by omega
    rw [if_neg hb, hone]
    rfl

theorem append_one {w : Nat} (m : BitVec w) : (1#1 ++ m).toNat = 2 ^ w + m.toNat := by
  rw [BitVec.toNat_append, ← Nat.shiftLeft_add_eq_or_of_lt m.isLt]
  simp [Nat.shiftLeft_eq]

/-- The parts of an unpacked double. -/
def Binary.ofUnpacked : UnpackedFloat → Binary
  | .notANumber => .nan
  | .infinity s => .infinite (isNegative s)
  | .zero s => .finite (isNegative s) 0 (-1074)
  | .finite s m e _ => .finite (isNegative s) m e

theorem eq_iff_toNat {w : Nat} {b c : BitVec w} {n : Nat} (hc : c.toNat = n) : b = c ↔ b.toNat = n := by
  rw [← hc]
  exact ⟨fun h => congrArg _ h, BitVec.eq_of_toNat_eq⟩

/-- Reading the bits of a double and unpacking it give the same parts. -/
theorem Binary.ofFloat_eq (x : Float) : Binary.ofFloat x = ofUnpacked x.toModel.unpack := by
  show _ = ofUnpacked (unpack .binary64 x.toBits.toBitVec)
  generalize hb : x.toBits.toBitVec = b
  have hbits : x.toBits.toNat = b.toNat := by rw [← hb]; rfl
  have hlt : b.toNat < 2 ^ 64 := b.isLt
  have hsign : isNegative (Sign.ofBitVec (@unpackSign .binary64 b)) =
      decide (1 <<< 63 ≤ b.toNat) := by
    rw [isNegative_ofBitVec, toNat_unpackSign]
    congr 1
    rw [eq_iff_iff]
    omega
  have hfield : (@unpackExponent .binary64 b).toNat = (b.toNat >>> 52) % 2048 := by
    rw [toNat_unpackExponent, Nat.shiftRight_eq_div_pow]
  have hfraction : (@unpackMantissa .binary64 b).toNat = b.toNat % (1 <<< 52) :=
    toNat_unpackMantissa b
  unfold Binary.ofFloat unpack
  rw [hbits]
  dsimp only
  rw [← hsign, ← hfield, ← hfraction]
  have hall : @unpackExponent .binary64 b = -1#_ ↔
      (@unpackExponent .binary64 b).toNat = 2047 := eq_iff_toNat rfl
  have hnone : @unpackExponent .binary64 b = 0#_ ↔
      (@unpackExponent .binary64 b).toNat = 0 := eq_iff_toNat rfl
  have hzero : @unpackMantissa .binary64 b = 0#_ ↔
      (@unpackMantissa .binary64 b).toNat = 0 := eq_iff_toNat rfl
  by_cases hspecial : @unpackExponent .binary64 b = -1#_
  · rw [if_pos (hall.1 hspecial), if_pos hspecial]
    by_cases hm : @unpackMantissa .binary64 b = 0#_
    · rw [if_pos (hzero.1 hm), if_pos hm]
      rfl
    · rw [if_neg (fun h => hm (hzero.2 h)), if_neg hm]
      rfl
  · rw [if_neg (fun h => hspecial (hall.2 h)), if_neg hspecial]
    by_cases hsub : @unpackExponent .binary64 b = 0#_
    · rw [if_pos (hnone.1 hsub), if_pos hsub]
      by_cases hm : @unpackMantissa .binary64 b = 0#_
      · rw [dif_pos hm, hzero.1 hm]
        rfl
      · rw [dif_neg hm, ofUnpacked, hnone.1 hsub]
        rfl
    · rw [if_neg (fun h => hsub (hnone.2 h)), if_neg hsub, ofUnpacked, append_one]
      rfl

/-! ## Normal doubles -/

theorem unpackSign_packComponents (s : Sign) (e : BitVec 11) (m : BitVec 52) :
    unpackSign (packComponents .binary64 s e m) = s.toBitVec := by
  apply BitVec.eq_of_toNat_eq
  rw [toNat_unpackSign]
  simp only [packComponents, BitVec.toNat_append]
  have he := e.isLt
  have hm := m.isLt
  rw [← Nat.shiftLeft_add_eq_or_of_lt he, ← Nat.shiftLeft_add_eq_or_of_lt hm]
  have hs := s.toBitVec.isLt
  simp only [Nat.shiftLeft_eq]
  omega

theorem ofBitVec_toBitVec (s : Sign) : Sign.ofBitVec s.toBitVec = s := by
  cases s <;> rfl

/-- A mantissa of fifty-three bits, with an exponent that doubles have. -/
structure Normal (m : Nat) (e : Int) : Prop where
  low : 2 ^ 52 ≤ m
  high : m < 2 ^ 53
  least : -1074 ≤ e
  greatest : e ≤ 971

theorem Normal.pos {m : Nat} {e : Int} (h : Normal m e) : 0 < m :=
  Nat.lt_of_lt_of_le (Nat.two_pow_pos 52) h.low

theorem Normal.log2 {m : Nat} {e : Int} (h : Normal m e) : m.log2 = 52 := by
  have hne : m ≠ 0 := Nat.ne_of_gt h.pos
  have hlow := (Nat.le_log2 hne).2 h.low
  have hhigh := (Nat.log2_lt hne).2 h.high
  omega

/-- What bits unpack to, if their fields are those of a normal double. -/
theorem Normal.unpack_eq {m : Nat} {e : Int} (h : Normal m e) {b : BitVec Format.binary64.numBits}
    (hm : b.toNat % 2 ^ 52 = m - 2 ^ 52) (he : ((b.toNat / 2 ^ 52 % 2048 : Nat) : Int) = e + 1075) :
    unpack .binary64 b = .finite (Sign.ofBitVec (unpackSign b)) m e h.pos := by
  obtain ⟨hlow, hhigh, hleast, hgreatest⟩ := h
  have hexp := toNat_unpackExponent b
  have hall : ¬ @unpackExponent .binary64 b = -1#11 := fun heq => by
    have hnat : (@unpackExponent .binary64 b).toNat = 2047 := congrArg BitVec.toNat heq
    omega
  have hnone : ¬ @unpackExponent .binary64 b = 0#11 := fun heq => by
    have hnat : (@unpackExponent .binary64 b).toNat = 0 := congrArg BitVec.toNat heq
    omega
  have hmantissa : (1#1 ++ @unpackMantissa .binary64 b).toNat = m := by
    rw [append_one, toNat_unpackMantissa]
    show 2 ^ 52 + b.toNat % 2 ^ 52 = m
    omega
  have hexponent : ((@unpackExponent .binary64 b).toNat : Int) -
      ((Format.binary64.exponentBias : Int) +
        (Format.binary64.mantissaBitsWithoutImplicit : Int)) = e := by
    show ((@unpackExponent .binary64 b).toNat : Int) - (1023 + 52) = e
    omega
  unfold unpack
  dsimp only
  rw [if_neg hall, if_neg hnone]
  simp only [hmantissa, hexponent]

/-- Packing a normal double loses nothing. -/
theorem Normal.unpack_pack {m : Nat} {e : Int} (h : Normal m e) (s : Sign) :
    unpack .binary64 (pack .binary64 (.finite s m e h.pos)) = .finite s m e h.pos := by
  have hlow := h.low
  have hhigh := h.high
  have hleast := h.least
  have hgreatest := h.greatest
  obtain ⟨field, hfield⟩ : ∃ field : Nat, (field : Int) = e + 1075 := ⟨(e + 1075).toNat, by omega⟩
  have hbiased : (e + (Format.binary64.exponentBias : Int) +
      (Format.binary64.mantissaBitsWithoutImplicit : Int)).toNat = field := by
    show (e + 1023 + 52).toNat = field
    omega
  have hpack : pack .binary64 (.finite s m e h.pos) =
      packComponents .binary64 s (BitVec.ofNat 11 field) (BitVec.ofNat 52 m) := by
    unfold pack
    dsimp only
    rw [hbiased, h.log2, if_neg (by show ¬ 2 ^ 11 ≤ field + 1; omega)]
    exact if_pos rfl
  rw [hpack, h.unpack_eq, unpackSign_packComponents, ofBitVec_toBitVec]
  · rw [← toNat_unpackMantissa, unpackMantissa_packComponents]
    show (BitVec.ofNat 52 m).toNat = _
    rw [BitVec.toNat_ofNat]
    omega
  · rw [← toNat_unpackExponent, unpackExponent_packComponents, ← hfield]
    show ((BitVec.ofNat 11 field).toNat : Int) = _
    rw [BitVec.toNat_ofNat]
    omega

theorem Normal.ofFloat {m : Nat} {e : Int} (h : Normal m e) (s : Sign) :
    Binary.ofFloat ⟨Float.Model.pack (.finite s m e h.pos)⟩ = .finite (isNegative s) m e := by
  rw [Binary.ofFloat_eq]
  show Binary.ofUnpacked (unpack .binary64 (pack .binary64 (.finite s m e h.pos))) = _
  rw [h.unpack_pack]
  rfl

theorem Normal.pack? {m : Nat} {e : Int} (h : Normal m e) (negative : Bool) :
    ∃ x, pack? negative m e = some x ∧ Binary.ofFloat x = .finite negative m e := by
  have hlow := h.low
  have hhigh := h.high
  have hleast := h.least
  have hgreatest := h.greatest
  obtain ⟨field, hfield⟩ : ∃ field : Nat, (field : Int) = e + 1075 := ⟨(e + 1075).toNat, by omega⟩
  obtain ⟨sign, hsign⟩ : ∃ sign : Nat, sign = if negative then 1 else 0 := ⟨_, rfl⟩
  have hone : sign < 2 := by
    rw [hsign]
    split <;> omega
  obtain ⟨bits, hbits⟩ : ∃ bits : Nat, bits = sign * 2 ^ 63 + field * 2 ^ 52 + (m - 2 ^ 52) := ⟨_, rfl⟩
  have hpack : Decimal.pack? negative m e = some (Float.ofBits (UInt64.ofNat bits)) := by
    unfold Decimal.pack?
    have hne : ¬ m = 1 <<< 53 := by
      show ¬ m = 2 ^ 53
      omega
    have hnormal : ¬ m < 1 <<< 52 := by
      show ¬ m < 2 ^ 52
      omega
    have hfinite : ¬ 2047 ≤ (e + 1075).toNat := by omega
    have hsum : (if negative = true then 1 <<< 63 else 0) + (e + 1075).toNat <<< 52 + (m - 1 <<< 52) =
        bits := by
      rw [hbits, hsign, ← hfield, Int.toNat_natCast, Nat.shiftLeft_eq field]
      cases negative <;> rfl
    simp only [if_neg hne, if_neg hnormal, if_neg hfinite, hsum]
  refine ⟨_, hpack, ?_⟩
  have htoNat : (UInt64.ofNat bits).toBitVec.toNat = bits := by
    show bits % 2 ^ 64 = bits
    omega
  have hunpack : unpack .binary64 (UInt64.ofNat bits).toBitVec =
      .finite (Sign.ofBitVec (@unpackSign .binary64 (UInt64.ofNat bits).toBitVec)) m e h.pos := by
    apply h.unpack_eq
    · rw [htoNat]
      omega
    · rw [htoNat]
      omega
  have hmodel : (Float.ofBits (UInt64.ofNat bits)).toModel =
      Float.Model.pack (unpack .binary64 (UInt64.ofNat bits).toBitVec) := rfl
  rw [Binary.ofFloat_eq, hmodel, hunpack, ← Binary.ofFloat_eq ⟨_⟩, h.ofFloat, isNegative_ofBitVec,
    toNat_unpackSign, htoNat]
  have hbit : decide (bits / 2 ^ 63 % 2 = 1) = negative := by
    cases negative with
    | false =>
      have hzero : sign = 0 := hsign
      exact decide_eq_false (by omega)
    | true =>
      have hset : sign = 1 := hsign
      exact decide_eq_true (by omega)
  rw [hbit]

/-! ## Whole doubles -/

/-- The exact value of a double is an integer. -/
def Whole (x : Float) (n : Int) : Prop := compareInt? n x = some .eq

/-- A mantissa with its sign. -/
def withSign (negative : Bool) (m : Nat) : Int := if negative then -(m : Int) else m

theorem compareInt?_of_finite {x : Float} {negative : Bool} {m : Nat} {e : Int}
    (hx : Binary.ofFloat x = .finite negative m e) (k : Int) :
    compareInt? k x =
      some (compare (k * 2 ^ (-e).toNat) (withSign negative m * 2 ^ e.toNat)) := by
  unfold compareInt?
  rw [hx]
  have hpower : ((1 <<< e.natAbs : Nat) : Int) = 2 ^ e.natAbs := by
    rw [Nat.one_shiftLeft]
    exact Int.natCast_pow 2 _
  dsimp only
  rw [hpower]
  by_cases he : 0 ≤ e
  · have h1 : (-e).toNat = 0 := by omega
    have h2 : e.natAbs = e.toNat := by omega
    rw [if_pos he, h1, h2, Int.pow_zero, Int.mul_one]
    rfl
  · have h1 : e.toNat = 0 := by omega
    have h2 : e.natAbs = (-e).toNat := by omega
    rw [if_neg he, h1, h2, Int.pow_zero, Int.mul_one]
    rfl

theorem whole_of_finite {x : Float} {n : Int} {negative : Bool} {m : Nat} {e : Int}
    (hx : Binary.ofFloat x = .finite negative m e) :
    Whole x n ↔ n * 2 ^ (-e).toNat = withSign negative m * 2 ^ e.toNat := by
  unfold Whole
  rw [compareInt?_of_finite hx, Option.some.injEq]
  exact Int.compare_eq_eq

theorem exists_finite_of_whole {x : Float} {n : Int} (h : Whole x n) :
    ∃ negative m e, Binary.ofFloat x = .finite negative m e ∧
      n * 2 ^ (-e).toNat = withSign negative m * 2 ^ e.toNat := by
  cases hx : Binary.ofFloat x with
  | nan => simp [Whole, compareInt?, hx] at h
  | infinite negative => cases negative <;> simp [Whole, compareInt?, hx] at h
  | finite negative m e => exact ⟨negative, m, e, rfl, (whole_of_finite hx).1 h⟩

theorem compare_mul_pos {k n p : Int} (hp : 0 < p) : compare (k * p) (n * p) = compare k n := by
  rcases Int.lt_trichotomy k n with h | h | h
  · rw [Int.compare_eq_lt.2 h, Int.compare_eq_lt]
    exact Int.mul_lt_mul_of_pos_right h hp
  · rw [h, Int.compare_eq_eq.2 rfl, Int.compare_eq_eq.2 rfl]
  · rw [Int.compare_eq_gt.2 h, Int.compare_eq_gt]
    exact Int.mul_lt_mul_of_pos_right h hp

/-- Integers are to a whole double as they are to its value. -/
theorem Whole.compareInt? {x : Float} {n : Int} (h : Whole x n) (k : Int) :
    Decimal.compareInt? k x = some (compare k n) := by
  obtain ⟨negative, m, e, hx, hn⟩ := exists_finite_of_whole h
  rw [compareInt?_of_finite hx, ← hn, compare_mul_pos (Int.pow_pos (by decide))]

theorem Whole.truncate? {x : Float} {n : Int} (h : Whole x n) : Decimal.truncate? x = some n := by
  obtain ⟨negative, m, e, hx, hn⟩ := exists_finite_of_whole h
  unfold Decimal.truncate?
  rw [hx]
  refine congrArg some ?_
  by_cases he : 0 ≤ e
  · have h1 : (-e).toNat = 0 := by omega
    rw [h1, Int.pow_zero, Int.mul_one] at hn
    rw [if_pos he, hn, Nat.shiftLeft_eq]
    cases negative with
    | false => simp [withSign]
    | true => simp [withSign]
  · have h1 : e.toNat = 0 := by omega
    rw [h1, Int.pow_zero, Int.mul_one] at hn
    rw [if_neg he, Nat.shiftRight_eq_div_pow]
    generalize (-e).toNat = k at hn
    have hm : m = n.natAbs * 2 ^ k := by
      have habs := congrArg Int.natAbs hn
      rw [Int.natAbs_mul, Int.natAbs_pow] at habs
      rw [show (2 : Int).natAbs = 2 from rfl] at habs
      rw [habs]
      cases negative <;> simp [withSign]
    rw [hm, Nat.mul_div_cancel _ (Nat.two_pow_pos k)]
    have hp : (0 : Int) < 2 ^ k := Int.pow_pos (by decide)
    cases negative with
    | false =>
      have hnonneg : ¬ n < 0 := fun hneg => by
        have hmul := Int.mul_neg_of_neg_of_pos hneg hp
        simp only [withSign, Bool.false_eq_true, if_false] at hn
        omega
      simp only [Bool.false_eq_true, if_false]
      omega
    | true =>
      have hnonpos : ¬ 0 < n := fun hpos => by
        have hmul := Int.mul_pos hpos hp
        simp only [withSign, if_true] at hn
        omega
      simp only [if_true]
      omega

theorem roundDiv_of_dvd {num den : Nat} (hden : 0 < den) (h : num % den = 0) :
    roundDiv num den = num / den := by
  unfold roundDiv
  dsimp only
  rw [h, if_pos (by omega)]

theorem overPower_neg (n den : Nat) {e : Int} {k : Nat} (h : e = -(k : Int)) :
    overPower n den e = (n * 2 ^ k, den) := by
  unfold overPower
  by_cases hk : k = 0
  · subst hk
    rw [if_pos (by omega), h]
    simp
  · rw [if_neg (by omega), h, Int.neg_neg, Int.toNat_natCast, Nat.shiftLeft_eq]

/-- An integer of at most fifty-three bits is normal under one of the exponents. -/
theorem exists_normal {n : Nat} (hpos : 0 < n) (hlt : n < 2 ^ 53) :
    ∃ k : Nat, n.log2 + k = 52 ∧ Normal (n * 2 ^ k) (-(k : Int)) := by
  have hlow := Nat.log2_self_le (Nat.ne_of_gt hpos)
  have hhigh := @Nat.lt_log2_self n
  have hlog := (Nat.log2_lt (Nat.ne_of_gt hpos)).2 hlt
  obtain ⟨k, hk⟩ : ∃ k, n.log2 + k = 52 := ⟨52 - n.log2, by omega⟩
  refine ⟨k, hk, ?_, ?_, by omega, by omega⟩
  · rw [← hk, Nat.pow_add]
    exact Nat.mul_le_mul_right _ hlow
  · rw [show 53 = (n.log2 + 1) + k by omega, Nat.pow_add 2 (n.log2 + 1)]
    exact Nat.mul_lt_mul_of_pos_right hhigh (Nat.two_pow_pos k)

theorem nearest?_of_lt (negative : Bool) {n : Nat} (hpos : 0 < n) (hlt : n < 2 ^ 53) :
    ∃ k : Nat, Normal (n * 2 ^ k) (-(k : Int)) ∧
      nearest? negative n 1 = pack? negative (n * 2 ^ k) (-(k : Int)) := by
  obtain ⟨k, hk, hnormal⟩ := exists_normal hpos hlt
  refine ⟨k, hnormal, ?_⟩
  unfold nearest?
  have he : (n.log2 : Int) - ((1 : Nat).log2 : Int) - 53 = -((k + 1 : Nat) : Int) := by
    show (n.log2 : Int) - 0 - 53 = _
    omega
  rw [if_neg (Nat.ne_of_gt hpos)]
  simp only [he, overPower_neg n 1 rfl, Nat.div_one]
  have hlarge : ¬ n * 2 ^ (k + 1) < 1 <<< 53 := by
    show ¬ n * 2 ^ (k + 1) < 2 ^ 53
    have hlow := hnormal.low
    rw [Nat.pow_succ, ← Nat.mul_assoc]
    omega
  have hexp : max (-((k + 1 : Nat) : Int) + 1) (-1074) = -(k : Int) := by omega
  rw [if_neg hlarge, hexp, overPower_neg n 1 rfl, roundDiv_of_dvd (by decide) (Nat.mod_one _), Nat.div_one]

theorem withSign_mul (negative : Bool) (m p : Nat) :
    withSign negative (m * p) = withSign negative m * p := by
  cases negative <;> simp [withSign]

/-- An integer of at most fifty-three bits, and the one that follows them, is a double. -/
theorem exists_ofInt? {n : Int} (h : n.natAbs ≤ 2 ^ 53) : ∃ x, ofInt? n = some x ∧ Whole x n := by
  by_cases hzero : n = 0
  · subst hzero
    exact ⟨_, rfl, by unfold Whole; decide +kernel⟩
  have hsign : withSign (decide (n < 0)) n.natAbs = n := by
    unfold withSign
    by_cases hn : n < 0
    · rw [decide_eq_true hn, if_pos rfl]
      omega
    · rw [decide_eq_false hn, if_neg Bool.false_ne_true]
      omega
  unfold ofInt?
  generalize decide (n < 0) = negative at hsign
  rcases Nat.lt_or_eq_of_le h with hlt | heq
  · obtain ⟨k, hnormal, hnearest⟩ := nearest?_of_lt negative (by omega) hlt
    obtain ⟨x, hx, hparts⟩ := hnormal.pack? negative
    refine ⟨x, by rw [hnearest, hx], (whole_of_finite hparts).2 ?_⟩
    rw [withSign_mul, hsign]
    simp
  · have hnormal : Normal (2 ^ 52) 1 := ⟨by decide, by decide, by decide, by decide⟩
    obtain ⟨x, hx, hparts⟩ := hnormal.pack? negative
    have hnearest : nearest? negative (2 ^ 53) 1 = pack? negative (2 ^ 52) 1 := by
      cases negative <;> rfl
    refine ⟨x, by rw [heq, hnearest, hx], (whole_of_finite hparts).2 ?_⟩
    rw [← hsign, heq]
    cases negative <;> rfl

theorem le_roundDiv (num den : Nat) :
    num / den ≤ roundDiv num den ∧ roundDiv num den ≤ num / den + 1 := by
  unfold roundDiv
  dsimp only
  split
  · omega
  · split
    · omega
    · split <;> omega

theorem overPower_natCast (n k : Nat) : overPower n 1 (k : Int) = (n, 2 ^ k) := by
  unfold overPower
  rw [if_pos (Int.natCast_nonneg k), Int.toNat_natCast, Nat.one_shiftLeft]

/-- An integer of more bits is rounded to fifty-three of them. -/
theorem nearest?_of_large (negative : Bool) {n : Nat} (h : 2 ^ 53 ≤ n) :
    ∃ m k : Nat, 2 ^ 52 ≤ m ∧ m ≤ 2 ^ 53 ∧ nearest? negative n 1 = pack? negative m (k : Int) := by
  have hne : n ≠ 0 := by omega
  have hlow := Nat.log2_self_le hne
  have hhigh := @Nat.lt_log2_self n
  have hlog : 53 ≤ n.log2 := (Nat.le_log2 hne).2 h
  obtain ⟨k, hk⟩ : ∃ k, n.log2 = 53 + k := ⟨n.log2 - 53, by omega⟩
  rw [hk] at hlow hhigh
  have hfirst : 2 ^ 53 ≤ n / 2 ^ k := by
    rw [Nat.le_div_iff_mul_le (Nat.two_pow_pos k), ← Nat.pow_add]
    exact hlow
  have hleast : 2 ^ 52 ≤ n / 2 ^ (k + 1) := by
    rw [Nat.le_div_iff_mul_le (Nat.two_pow_pos _), ← Nat.pow_add,
      show 52 + (k + 1) = 53 + k by omega]
    exact hlow
  have hmost : n / 2 ^ (k + 1) < 2 ^ 53 := by
    rw [Nat.div_lt_iff_lt_mul (Nat.two_pow_pos _), ← Nat.pow_add,
      show 53 + (k + 1) = 53 + k + 1 by omega]
    exact hhigh
  obtain ⟨hge, hle⟩ := le_roundDiv n (2 ^ (k + 1))
  refine ⟨roundDiv n (2 ^ (k + 1)), k + 1, by omega, by omega, ?_⟩
  have he : (n.log2 : Int) - ((1 : Nat).log2 : Int) - 53 = (k : Int) := by
    rw [hk, show (1 : Nat).log2 = 0 from rfl]
    omega
  have hexp : max ((k : Int) + 1) (-1074) = ((k + 1 : Nat) : Int) := by omega
  have hlarge : ¬ n / 2 ^ k < 1 <<< 53 := by
    rw [Nat.one_shiftLeft]
    omega
  unfold nearest?
  rw [if_neg hne]
  simp only [he, overPower_natCast, if_neg hlarge, hexp]

theorem ofFloat_of_pack? {negative : Bool} {m : Nat} {e : Int} {x : Float} (hlow : 2 ^ 52 ≤ m)
    (hhigh : m < 2 ^ 53) (hleast : -1074 ≤ e) (h : pack? negative m e = some x) :
    Binary.ofFloat x = .finite negative m e := by
  have hne : ¬ m = 1 <<< 53 := by
    rw [Nat.one_shiftLeft]
    omega
  have hnormal : ¬ m < 1 <<< 52 := by
    rw [Nat.one_shiftLeft]
    omega
  have hgreatest : e ≤ 971 := by
    apply Int.not_lt.1
    intro hlarge
    have hnone : 2047 ≤ (e + 1075).toNat := by omega
    unfold pack? at h
    simp only [if_neg hne, if_neg hnormal, if_pos hnone] at h
    cases h
  obtain ⟨y, hy, hfinite⟩ := (Normal.mk hlow hhigh hleast hgreatest).pack? negative
  cases hy.symm.trans h
  exact hfinite

theorem pack?_carry (negative : Bool) (e : Int) :
    pack? negative (2 ^ 53) e = pack? negative (2 ^ 52) (e + 1) := rfl

theorem truncate?_of_negative {n : Int} {x : Float} (hn : n < 0) (h : ofInt? n = some x) :
    ∃ k ≤ 0, truncate? x = some k := by
  by_cases hsmall : n.natAbs ≤ 2 ^ 53
  · obtain ⟨y, hy, hwhole⟩ := exists_ofInt? hsmall
    cases hy.symm.trans h
    exact ⟨n, by omega, hwhole.truncate?⟩
  · unfold ofInt? at h
    obtain ⟨m, k, hlow, hhigh, hnearest⟩ := nearest?_of_large (decide (n < 0)) (n := n.natAbs) (by omega)
    rw [hnearest, decide_eq_true hn] at h
    have hfinite : ∃ m' e', Binary.ofFloat x = .finite true m' e' := by
      by_cases hm : m = 2 ^ 53
      · rw [hm, pack?_carry] at h
        exact ⟨_, _, ofFloat_of_pack? (Nat.le_refl _) (by decide) (by omega) h⟩
      · exact ⟨_, _, ofFloat_of_pack? hlow (by omega) (by omega) h⟩
    obtain ⟨m', e', hx⟩ := hfinite
    refine ⟨_, ?_, by unfold truncate?; rw [hx]⟩
    simp only [if_true]
    omega

/-! ## One less -/

theorem shiftRight_exact (m k : Nat) :
    (ExtendedMantissa.ofMantissaAndAccuracy (m * 2 ^ k) .exact >>> k) = ⟨m, false, false⟩ := by
  induction k generalizing m with
  | zero => simp [HShiftRight.hShiftRight, Nat.repeat, ExtendedMantissa.ofMantissaAndAccuracy]
  | succ k ih =>
    have hprev := ih (m * 2)
    rw [show m * 2 ^ (k + 1) = m * 2 * 2 ^ k by rw [Nat.pow_succ, Nat.mul_comm (2 ^ k), Nat.mul_assoc]]
    show ExtendedMantissa.shiftRightOne
      (ExtendedMantissa.ofMantissaAndAccuracy (m * 2 * 2 ^ k) .exact >>> k) = _
    rw [hprev]
    simp [ExtendedMantissa.shiftRightOne]

/-- Rounding a mantissa that is a normal one with zeros behind it only takes the zeros away. -/
theorem Normal.round_eq {m : Nat} {e : Int} (h : Normal m e) (s : Sign) (k : Nat) (hk : -1074 ≤ e - k) :
    round .binary64 s (m * 2 ^ k) (e - k) = .finite s m e h.pos := by
  have hne : m * 2 ^ k ≠ 0 := Nat.ne_of_gt (Nat.mul_pos h.pos (Nat.two_pow_pos k))
  have hlog : (m * 2 ^ k).log2 = 52 + k := by
    have hlow : 2 ^ (52 + k) ≤ m * 2 ^ k := by
      rw [Nat.pow_add]
      exact Nat.mul_le_mul_right _ h.low
    have hhigh : m * 2 ^ k < 2 ^ (53 + k) := by
      rw [Nat.pow_add]
      exact Nat.mul_lt_mul_of_pos_right h.high (Nat.two_pow_pos k)
    have hle := (Nat.le_log2 hne).2 hlow
    have hlt := (Nat.log2_lt hne).2 hhigh
    omega
  have hleast := h.least
  have htarget (m' : Nat) (e' : Int) : Format.binary64.targetExponent (totalExponent m' e') =
      max ((m'.log2 : Int) + 1 + e' - 53) (-1074) := rfl
  have hfirst : Format.binary64.targetExponent (totalExponent (m * 2 ^ k) (e - k)) = e := by
    rw [htarget, hlog]
    omega
  have hsecond : Format.binary64.targetExponent (totalExponent m e) = e := by
    rw [htarget, h.log2]
    omega
  have hback : (e - k - e).toNat = 0 := by omega
  have hforth : (e - (e - k)).toNat = k := by omega
  have hnone : (e - e).toNat = 0 := by omega
  have hshift : shiftToTargetExponent .binary64 (m * 2 ^ k) (e - k) .exact = (⟨m, false, false⟩, e) := by
    unfold shiftToTargetExponent shiftToExponent
    simp only [hfirst, hforth, shiftRight_exact]
    congr 1
    omega
  have hagain : shiftToTargetExponent .binary64 m e .exact = (⟨m, false, false⟩, e) := by
    have hexact := shiftRight_exact m 0
    rw [Nat.pow_zero, Nat.mul_one] at hexact
    unfold shiftToTargetExponent shiftToExponent
    simp only [hsecond, hnone, hexact]
    congr 1
    omega
  have hrounded : ExtendedMantissa.roundedMantissa ⟨m, false, false⟩ = m := rfl
  unfold Float.Model.UnpackedFloat.round decreaseExponent
  simp only [hfirst, hback, Nat.shiftLeft_zero, Int.natCast_zero, Int.sub_zero]
  unfold roundWithAccuracy
  simp only [hshift, hrounded, hagain]
  rw [dif_neg (Nat.ne_of_gt h.pos)]

theorem unpack_one {x : Float} (h : ofInt? 1 = some x) :
    x.toModel.unpack = .finite .positive (2 ^ 52) (-52) (by decide) := by
  cases h
  rfl

theorem normal_or_small {x : Float} {negative : Bool} {m : Nat} {e : Int}
    (hx : Binary.ofFloat x = .finite negative m e) : Normal m e ∨ m < 2 ^ 52 ∧ e = -1074 := by
  unfold Binary.ofFloat at hx
  dsimp only at hx
  have hfraction : x.toBits.toNat % 1 <<< 52 < 2 ^ 52 := Nat.mod_lt _ (by decide)
  have hfield : x.toBits.toNat >>> 52 % 2048 < 2048 := Nat.mod_lt _ (by decide)
  generalize x.toBits.toNat % 1 <<< 52 = fraction at hx hfraction
  generalize x.toBits.toNat >>> 52 % 2048 = field at hx hfield
  split at hx
  · split at hx <;> cases hx
  · split at hx
    · cases hx
      exact .inr ⟨hfraction, rfl⟩
    · cases hx
      have hlow : 1 <<< 52 = 2 ^ 52 := rfl
      exact .inl ⟨by omega, by omega, by omega, by omega⟩

theorem unpack_of_finite {x : Float} {negative : Bool} {m : Nat} {e : Int}
    (hx : Binary.ofFloat x = .finite negative m e) (hm : 0 < m) :
    ∃ s, isNegative s = negative ∧ x.toModel.unpack = .finite s m e hm := by
  rw [Binary.ofFloat_eq] at hx
  cases hu : x.toModel.unpack with
  | notANumber => simp [hu, Binary.ofUnpacked] at hx
  | infinity s => simp [hu, Binary.ofUnpacked] at hx
  | zero s =>
    simp [hu, Binary.ofUnpacked] at hx
    omega
  | finite s m' e' hm' =>
    simp only [hu, Binary.ofUnpacked, Binary.finite.injEq] at hx
    obtain ⟨hs, rfl, rfl⟩ := hx
    exact ⟨s, hs, rfl⟩

theorem Whole.eq_of_pos {x : Float} {n : Nat} (h : Whole x n) (hn : 0 < n) :
    ∃ m e, Binary.ofFloat x = .finite false m e ∧ n * 2 ^ (-e).toNat = m * 2 ^ e.toNat := by
  obtain ⟨negative, m, e, hx, hvalue⟩ := exists_finite_of_whole h
  cases negative with
  | false =>
    have hcast : (n : Int) * 2 ^ (-e).toNat = (m : Int) * 2 ^ e.toNat := hvalue
    exact ⟨m, e, hx, by exact_mod_cast hcast⟩
  | true =>
    have hleft : (0 : Int) < (n : Int) * 2 ^ (-e).toNat :=
      Int.mul_pos (by omega) (Int.pow_pos (by decide))
    have hright : (0 : Int) ≤ (m : Int) * 2 ^ e.toNat :=
      Int.mul_nonneg (by omega) (Int.le_of_lt (Int.pow_pos (by decide)))
    have hneg : withSign true m * 2 ^ e.toNat = -((m : Int) * 2 ^ e.toNat) := Int.neg_mul _ _
    omega

/-- A whole double from two to the limit is a normal one, whose mantissa is not shifted far. -/
theorem Whole.exists_normal {x : Float} {n : Nat} (h : Whole x n) (hn : 1 < n) (hle : n ≤ 2 ^ 53) :
    ∃ (m k : Nat) (hnormal : Normal m ((k : Int) - 51)),
      x.toModel.unpack = .finite .positive m ((k : Int) - 51) hnormal.pos ∧ m * 2 ^ k = n * 2 ^ 51 := by
  obtain ⟨m, e, hx, hvalue⟩ := h.eq_of_pos (by omega)
  rcases normal_or_small hx with hnormal | ⟨hsmall, rfl⟩
  · obtain ⟨s, hs, hunpack⟩ := unpack_of_finite hx hnormal.pos
    have hpositive : s = .positive := by
      cases s with
      | negative => cases hs
      | positive => rfl
    have hlow := hnormal.low
    have hhigh := hnormal.high
    have hrange : -51 ≤ e ∧ m * 2 ^ (e + 51).toNat = n * 2 ^ 51 := by
      by_cases he : 0 ≤ e
      · refine ⟨by omega, ?_⟩
        have hzero : (-e).toNat = 0 := by omega
        rw [hzero, Nat.pow_zero, Nat.mul_one] at hvalue
        rw [show (e + 51).toNat = e.toNat + 51 by omega, Nat.pow_add, ← Nat.mul_assoc, ← hvalue]
      · have hzero : e.toNat = 0 := by omega
        rw [hzero, Nat.pow_zero, Nat.mul_one] at hvalue
        -- A larger shift would take more than fifty-three bits.
        have hshift : (-e).toNat ≤ 51 := by
          apply Decidable.byContradiction
          intro hlarge
          have hpow : 2 ^ 52 ≤ 2 ^ (-e).toNat := Nat.pow_le_pow_right (by decide) (by omega)
          have hmul : 2 * 2 ^ 52 ≤ n * 2 ^ (-e).toNat := Nat.mul_le_mul hn hpow
          omega
        refine ⟨by omega, ?_⟩
        rw [← hvalue, Nat.mul_assoc, ← Nat.pow_add, show (-e).toNat + (e + 51).toNat = 51 by omega]
    obtain ⟨k, rfl⟩ : ∃ k : Nat, e = (k : Int) - 51 := ⟨(e + 51).toNat, by omega⟩
    rw [show ((k : Int) - 51 + 51).toNat = k by omega] at hrange
    exact ⟨m, k, hnormal, hpositive ▸ hunpack, hrange.2⟩
  · -- The least double that is not normal is far below one.
    have hfar : 52 ≤ (-(-1074 : Int)).toNat := by decide
    have hzero : (-1074 : Int).toNat = 0 := rfl
    generalize (-(-1074 : Int)).toNat = t at hvalue hfar
    rw [hzero, Nat.pow_zero, Nat.mul_one] at hvalue
    have hpow : 2 ^ 52 ≤ 2 ^ t := Nat.pow_le_pow_right (by decide) hfar
    have hmul : 1 * 2 ^ 52 ≤ n * 2 ^ t := Nat.mul_le_mul (by omega) hpow
    omega

/-- A difference is found under the lesser one of the exponents, and then rounded. -/
theorem sub_finite {m m' d p : Nat} {e e' least : Int} {hm : 0 < m} {hm' : 0 < m'}
    (hleast : min e e' = least) (hfirst : (decreaseExponent m e least).1 = d + p)
    (hsecond : (decreaseExponent m' e' least).1 = p) (hd : 0 < d) :
    sub .binary64 (.finite .positive m e hm) (.finite .positive m' e' hm') =
      round .binary64 .positive d least := by
  unfold sub
  dsimp only
  rw [hleast, hfirst, hsecond]
  have hdiff : Sign.positive.apply (d + p : Nat) - Sign.positive.apply p = (d : Int) := by
    show ((d + p : Nat) : Int) - (p : Int) = d
    omega
  have hpos : compare (d : Int) 0 = .gt := by
    rw [Int.compare_eq_gt]
    omega
  rw [hdiff]
  unfold UnpackedFloat.normalize
  rw [hpos]
  dsimp only
  rw [Int.toNat_natCast]

/-- One less than a whole double is exact up to the limit. -/
theorem Whole.sub_one {x one : Float} {n : Int} (h : Whole x n) (hone : ofInt? 1 = some one)
    (hn : 1 < n) (hle : n ≤ 2 ^ 53) : Whole (x - one) (n - 1) := by
  obtain ⟨j, rfl⟩ : ∃ j : Nat, n = (j + 1 : Nat) := ⟨(n - 1).toNat, by omega⟩
  obtain ⟨m, k, hnormal, hx, hm⟩ := h.exists_normal (by omega) (by omega)
  obtain ⟨l, hl, hless⟩ := Decimal.exists_normal (n := j) (by omega) (by omega)
  have hmodel : (x - one).toModel =
      Float.Model.pack (sub .binary64 x.toModel.unpack one.toModel.unpack) := rfl
  have hfirst : (decreaseExponent m ((k : Int) - 51) (-52)).1 = j * 2 ^ 52 + 2 ^ 52 := by
    show m <<< ((k : Int) - 51 - -52).toNat = _
    rw [show ((k : Int) - 51 - -52).toNat = k + 1 by omega, Nat.shiftLeft_eq, Nat.pow_succ,
      ← Nat.mul_assoc, hm]
    omega
  have hround := hless.round_eq .positive (52 - l) (by omega)
  rw [Nat.mul_assoc, ← Nat.pow_add, show l + (52 - l) = 52 by omega,
    show -(l : Int) - ((52 - l : Nat) : Int) = -52 by omega] at hround
  have hsub : sub .binary64 x.toModel.unpack one.toModel.unpack =
      .finite .positive (j * 2 ^ l) (-(l : Int)) hless.pos := by
    rw [hx, unpack_one hone, ← hround]
    exact sub_finite (by omega) hfirst rfl (Nat.mul_pos (by omega) (Nat.two_pow_pos 52))
  have hfloat : x - one = ⟨(x - one).toModel⟩ := rfl
  rw [hfloat, hmodel, hsub, whole_of_finite (hless.ofFloat .positive)]
  have hzero : (-(l : Int)).toNat = 0 := by omega
  rw [Int.neg_neg, Int.toNat_natCast, hzero, Int.pow_zero, Int.mul_one]
  show ((j + 1 : Nat) - 1 : Int) * 2 ^ l = ((j * 2 ^ l : Nat) : Int)
  rw [Int.natCast_mul, Int.natCast_pow]
  congr 1
  omega

end Birokrasi.Decimal

namespace Birokrasi.Number

open Birokrasi.Decimal (Whole exists_ofInt?)

theorem exists_floatOfInt {n : Int} (h : n.natAbs ≤ 2 ^ 53) :
    ∃ x, floatOfInt n = .ok x ∧ Whole x n := by
  obtain ⟨x, hx, hwhole⟩ := exists_ofInt? h
  refine ⟨x, ?_, hwhole⟩
  unfold floatOfInt
  rw [hx]

/-- As a count, the integer part of the double of an integer is that integer: there the double of a
negative one need not be exact. -/
theorem toNat_of_floatOfInt {n : Int} {x : Float} (hn : n ≤ 2 ^ 53) (hx : floatOfInt n = .ok x) :
    ∃ k, intOfFloat x = .ok k ∧ k.toNat = n.toNat := by
  unfold intOfFloat
  by_cases hneg : n < 0
  · have hof : Decimal.ofInt? n = some x := by
      unfold floatOfInt at hx
      split at hx
      next y hy =>
        cases hx
        exact hy
      · cases hx
    obtain ⟨k, hk, htrunc⟩ := Decimal.truncate?_of_negative hneg hof
    rw [htrunc]
    exact ⟨k, rfl, by omega⟩
  · obtain ⟨y, hy, hwhole⟩ := exists_floatOfInt (n := n) (by omega)
    cases hy.symm.trans hx
    rw [hwhole.truncate?]
    exact ⟨n, rfl, rfl⟩

end Birokrasi.Number
