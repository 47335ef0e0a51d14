import Birokrasi.Guard.Watch

/-!
# Tampered code does not pass

The sum that code is checked by takes in one byte after the other (`sumStep`): the sum so far is
multiplied by 33, modulo `2 ^ 32`, and the byte is added. As 33 has an inverse modulo `2 ^ 32`, a
difference between two sums is never lost by the bytes that follow, however many these are
(`foldl_sumStep_inj`). The main statement is `verify_of_tampered`: code in which one byte has been
replaced, or two neighbours have been exchanged, does not pass for the code that the sum was taken of.
-/

namespace Birokrasi.Guard

open Birokrasi.Text (Bytes)

variable {h h' : UInt32} {a b : UInt8}

/-! ## One byte -/

/-- The sum after one more byte. -/
def sumStep (h : UInt32) (b : UInt8) : UInt32 := (h <<< 5) + h + b.toUInt32

theorem checksum_eq (code : Bytes) : checksum code = code.foldl sumStep 5381 := rfl

theorem sumStep_eq (h : UInt32) (b : UInt8) : sumStep h b = 33 * h + b.toUInt32 := by
  have hshift : h <<< 5 = 32 * h := by
    apply UInt32.toNat_inj.1
    simp [Nat.shiftLeft_eq, Nat.mul_comm]
  rw [sumStep, hshift]
  grind

/-- The inverse of 33 modulo `2 ^ 32`. -/
def inverseFactor : UInt32 := 0x3E0F83E1

theorem inverseFactor_mul (h : UInt32) : inverseFactor * (33 * h) = h := by
  have hone : inverseFactor * 33 = 1 := by decide
  rw [← UInt32.mul_assoc, hone, UInt32.one_mul]

/-- Two different sums stay different if the same byte follows. -/
theorem sumStep_left_inj (he : sumStep h b = sumStep h' b) : h = h' := by
  rw [sumStep_eq, sumStep_eq] at he
  have hmul : 33 * h = 33 * h' := (UInt32.add_left_inj _).1 he
  rw [← inverseFactor_mul h, hmul, inverseFactor_mul]

theorem sumStep_right_inj (he : sumStep h a = sumStep h b) : a = b := by
  rw [sumStep_eq, sumStep_eq] at he
  exact UInt8.toUInt32_inj.1 ((UInt32.add_right_inj _).1 he)

/-- The order of two different bytes shows in the sum: it makes a difference of 32 times theirs, which
is too small to vanish modulo `2 ^ 32`. -/
theorem sumStep_comm_inj (he : sumStep (sumStep h a) b = sumStep (sumStep h b) a) : a = b := by
  simp only [sumStep_eq] at he
  have hmul : 32 * a.toUInt32 = 32 * b.toUInt32 := by grind
  have hnat := congrArg UInt32.toNat hmul
  have ha := a.toNat_lt
  have hb := b.toNat_lt
  simp only [UInt32.toNat_mul, UInt8.toNat_toUInt32, UInt32.reduceToNat] at hnat
  apply UInt8.toNat_inj.1
  omega

/-! ## The bytes that follow -/

/-- A difference between two sums is not lost by what follows. -/
theorem foldl_sumStep_inj (back : Bytes) (he : back.foldl sumStep h = back.foldl sumStep h') :
    h = h' := by
  induction back generalizing h h' with
  | nil => exact he
  | cons b back ih => exact sumStep_left_inj (ih he)

/-- Code that somebody has changed a little: one byte has been replaced by another one, or two different
neighbours have changed places. -/
inductive Tampered : Bytes → Bytes → Prop where
  | replaced (front back : Bytes) {a b : UInt8} :
    a ≠ b → Tampered (front ++ a :: back) (front ++ b :: back)
  | exchanged (front back : Bytes) {a b : UInt8} :
    a ≠ b → Tampered (front ++ a :: b :: back) (front ++ b :: a :: back)

theorem checksum_ne_of_tampered {code code' : Bytes} (ht : Tampered code code') :
    checksum code' ≠ checksum code := by
  intro he
  rw [checksum_eq, checksum_eq] at he
  cases ht with
  | replaced front back hne =>
    simp only [List.foldl_append, List.foldl_cons] at he
    exact hne (sumStep_right_inj (foldl_sumStep_inj back he)).symm
  | exchanged front back hne =>
    simp only [List.foldl_append, List.foldl_cons] at he
    exact hne (sumStep_comm_inj (foldl_sumStep_inj back he)).symm

theorem verify_checksum_iff (code code' : Bytes) :
    verify (some (checksum code).toNat) code' = true ↔ checksum code' = checksum code := by
  rw [verify, decide_eq_true_eq, Int.natCast_inj, UInt32.toNat_inj]
  exact eq_comm

/-- With the sum of some code at hand, the code itself passes, and the code with one byte replaced by
another one or with two different neighbours exchanged does not, at any place of code of any length. -/
theorem verify_of_tampered {code code' : Bytes} (ht : Tampered code code') :
    verify (some (checksum code).toNat) code = true ∧
      verify (some (checksum code).toNat) code' = false := by
  refine ⟨(verify_checksum_iff code code).2 rfl, ?_⟩
  rw [Bool.eq_false_iff, ne_eq, verify_checksum_iff]
  exact checksum_ne_of_tampered ht

/-- The operand of a jump is changed in its low byte, and the two bytes of an operand are exchanged. -/
theorem verify_of_tampered_jump :
    (verify (some (checksum [0x40, 0x06, 0x00, 0xFF]).toNat) [0x40, 0x06, 0x00, 0xFF] = true ∧
      verify (some (checksum [0x40, 0x06, 0x00, 0xFF]).toNat) [0x40, 0x07, 0x00, 0xFF] = false) ∧
    (verify (some (checksum [0x40, 0x06, 0x00, 0xFF]).toNat) [0x40, 0x06, 0x00, 0xFF] = true ∧
      verify (some (checksum [0x40, 0x06, 0x00, 0xFF]).toNat) [0x40, 0x00, 0x06, 0xFF] = false) :=
  ⟨verify_of_tampered (.replaced [0x40] [0x00, 0xFF] (by decide)),
    verify_of_tampered (.exchanged [0x40] [0xFF] (by decide))⟩

end Birokrasi.Guard
