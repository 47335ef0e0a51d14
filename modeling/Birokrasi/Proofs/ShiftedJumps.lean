import Birokrasi.Disguise.Mutation
import Birokrasi.Proofs.EmittedCode
import Birokrasi.Proofs.Outcome

/-!
# Shifted jumps stay within the code

The mutator may shift the target of a jump by a distance that is drawn. The new target is kept within the
code before it is cut into two bytes, and as code of at most `2 ^ 16` bytes has no address that takes
more, nothing is lost in them (`operandAt_withOperand`). Where no jump stands, or where the code ends before
its operand does, the code is left alone. The main statement is `shifted_jumps_in_range`.
-/

namespace Birokrasi

theorem Twister.between_bounds {low high : Int} (h : low ≤ high) (g : Twister) :
    low ≤ (g.between low high).1 ∧ (g.between low high).1 ≤ high := by
  have hlt := Twister.below_lt (n := (high - low + 1).toNat) (by omega) g
  rw [between]
  dsimp only
  omega

namespace Disguise

open Birokrasi.Bytecode

variable {code : Array UInt8} {pc n : Nat}

/-! ## Operands -/

/-- Code with a number written as the operand after the operation at an address. -/
def withOperand (code : Array UInt8) (pc n : Nat) : Array UInt8 :=
  (code.setIfInBounds (pc + 1) (n % 256).toUInt8).setIfInBounds (pc + 2) (n / 256 % 256).toUInt8

theorem size_withOperand (code : Array UInt8) (pc n : Nat) : (withOperand code pc n).size = code.size := by
  rw [withOperand, Array.size_setIfInBounds, Array.size_setIfInBounds]

theorem getElem?_withOperand (h : pc + 2 < code.size) (n i : Nat) :
    (withOperand code pc n)[i]? =
      if i = pc + 1 then some (n % 256).toUInt8
      else if i = pc + 2 then some (n / 256 % 256).toUInt8
      else code[i]? := by
  rw [withOperand, Array.getElem?_setIfInBounds, Array.getElem?_setIfInBounds,
    Array.size_setIfInBounds]
  grind

/-- No other byte changes. -/
theorem of_getElem?_withOperand_ne (h : pc + 2 < code.size) {i : Nat}
    (hi : (withOperand code pc n)[i]? ≠ code[i]?) : i = pc + 1 ∨ i = pc + 2 := by
  rw [getElem?_withOperand h] at hi
  by_cases hfirst : i = pc + 1
  · exact .inl hfirst
  by_cases hsecond : i = pc + 2
  · exact .inr hsecond
  rw [if_neg hfirst, if_neg hsecond] at hi
  exact absurd rfl hi

theorem operandAt_eq {low high : UInt8} (hlow : code[pc + 1]? = some low)
    (hhigh : code[pc + 2]? = some high) : operandAt code.toList pc = low.toNat + 256 * high.toNat := by
  have hbytes : (code.toList.drop (pc + 1)).take 2 = [low, high] := by
    apply List.ext_getElem?
    intro i
    rw [List.getElem?_take, List.getElem?_drop, Array.getElem?_toList]
    match i with
    | 0 => simpa using hlow
    | 1 => simpa using hhigh
    | i + 2 => rw [if_neg (by omega), List.getElem?_eq_none (by simp)]
  rw [operandAt, hbytes]
  rfl

/-- An operand of at most sixteen bits is read back as it was written. -/
theorem operandAt_withOperand (h : pc + 2 < code.size) (hn : n < 0x10000) :
    operandAt (withOperand code pc n).toList pc = n := by
  have hlow := getElem?_withOperand h n (pc + 1)
  have hhigh := getElem?_withOperand h n (pc + 2)
  rw [if_pos rfl] at hlow
  rw [if_neg (by omega), if_pos rfl] at hhigh
  rw [operandAt_eq hlow hhigh, Nat.toUInt8_eq, Nat.toUInt8_eq, UInt8.toNat_ofNat', UInt8.toNat_ofNat']
  omega

/-! ## The shift -/

/-- A jump stands at an address, with all of its operand. -/
def JumpAt (code : Array UInt8) (pc : Nat) : Prop :=
  pc + 2 < code.size ∧ (code[pc]? = some Opcode.jump.byte ∨ code[pc]? = some Opcode.jumpIfFalse.byte)

instance : Decidable (JumpAt code pc) := inferInstanceAs (Decidable (_ ∧ _))

/-- A target after a shift by some distance, within code of a size. -/
def shiftedTarget (size target : Nat) (distance : Int) : Nat :=
  (max 0 (min ((size : Int) - 1) (target + distance))).toNat

theorem shiftedTarget_lt {size : Nat} (h : 0 < size) (target : Nat) (distance : Int) :
    shiftedTarget size target distance < size := by
  rw [shiftedTarget]
  omega

/-- A target within the code comes no farther than it is shifted: the end that it is held at lies on the
way. -/
theorem shiftedTarget_near {size target : Nat} (h : target < size) {distance reach : Int}
    (hlow : -reach ≤ distance) (hhigh : distance ≤ reach) :
    ((shiftedTarget size target distance : Int) - target).natAbs ≤ reach := by
  rw [shiftedTarget]
  omega

/-- Where the code goes on for an operand, the byte at the address decides. -/
theorem shiftJump_eq {op : UInt8} (hlt : pc + 2 < code.size) (hop : code[pc]? = some op) (m : Mutator) :
    m.shiftJump code pc =
      if op = Opcode.jump.byte ∨ op = Opcode.jumpIfFalse.byte then
        .ok (withOperand code pc
            (shiftedTarget code.size (operandAt code.toList pc) (m.rng.between (-5) 5).1),
          { m with rng := (m.rng.between (-5) 5).2 })
      else .ok (code, m) := by
  have hend : ¬ (code.size : Int) ≤ pc + 2 := by omega
  unfold Mutator.shiftJump
  rw [if_neg hend, readByte_of_getElem? hop, ok_bind]
  by_cases hjump : op = Opcode.jump.byte ∨ op = Opcode.jumpIfFalse.byte
  · have hlow : code[pc + 1]? = some code[pc + 1] := Array.getElem?_eq_getElem (by omega)
    have hhigh : code[pc + 2]? = some code[pc + 2] := Array.getElem?_eq_getElem hlt
    have htarget : max 0 (min ((code.size : Int) - 1)
        (code[pc + 1].toNat + 256 * code[pc + 2].toNat + (m.rng.between (-5) 5).1)) =
        shiftedTarget code.size (operandAt code.toList pc) (m.rng.between (-5) 5).1 := by
      rw [shiftedTarget, operandAt_eq hlow hhigh]
      omega
    have hreadLow : readByte code ((pc : Int) + 1) = .ok code[pc + 1] := readByte_of_getElem? hlow
    have hreadHigh : readByte code ((pc : Int) + 2) = .ok code[pc + 2] := readByte_of_getElem? hhigh
    have hwriteLow (b : UInt8) :
        writeByte code ((pc : Int) + 1) b = .ok (code.setIfInBounds (pc + 1) b) :=
      (writeByte_natCast code (pc + 1) b).trans (if_pos (by omega))
    have hwriteHigh (b b' : UInt8) :
        writeByte (code.setIfInBounds (pc + 1) b) ((pc : Int) + 2) b' =
          .ok ((code.setIfInBounds (pc + 1) b).setIfInBounds (pc + 2) b') :=
      (writeByte_natCast _ (pc + 2) b').trans (if_pos (by rwa [Array.size_setIfInBounds]))
    simp only [Bool.or_eq_true, decide_eq_true_eq, if_pos hjump, hreadLow, hreadHigh, ok_bind,
      Mutator.reach, htarget, hwriteLow, hwriteHigh]
    rfl
  · simp only [Bool.or_eq_true, decide_eq_true_eq, if_neg hjump]
    rfl

theorem shiftJump_of_jumpAt (h : JumpAt code pc) (m : Mutator) :
    m.shiftJump code pc =
      .ok (withOperand code pc
          (shiftedTarget code.size (operandAt code.toList pc) (m.rng.between (-5) 5).1),
        { m with rng := (m.rng.between (-5) 5).2 }) := by
  obtain ⟨hlt, hop | hop⟩ := h
  · rw [shiftJump_eq hlt hop, if_pos (.inl rfl)]
  · rw [shiftJump_eq hlt hop, if_pos (.inr rfl)]

theorem shiftJump_of_not_jumpAt (h : ¬ JumpAt code pc) (m : Mutator) :
    m.shiftJump code pc = .ok (code, m) := by
  by_cases hlt : pc + 2 < code.size
  · have hop : code[pc]? = some code[pc] := Array.getElem?_eq_getElem (by omega)
    rw [shiftJump_eq hlt hop, if_neg]
    rintro (hjump | hjump)
    · exact h ⟨hlt, .inl (hjump ▸ hop)⟩
    · exact h ⟨hlt, .inr (hjump ▸ hop)⟩
  · have hend : (code.size : Int) ≤ pc + 2 := by omega
    unfold Mutator.shiftJump
    rw [if_pos hend]
    rfl

/-- A shift in code of at most `2 ^ 16` bytes, at any address and with any generator, returns, and only
its generator has changed with the code. The code has kept its size and all of its bytes but the operand of
a jump that stands at the address. This jump leads into the code afterwards, and if it did so before,
the two targets are not more than five apart. -/
theorem shifted_jumps_in_range (m : Mutator) (code : Array UInt8) (pc : Nat)
    (h : code.size ≤ 0x10000) :
    ∃ code' rng, m.shiftJump code pc = .ok (code', { m with rng }) ∧ code'.size = code.size ∧
      (∀ i : Nat, code'[i]? ≠ code[i]? → JumpAt code pc ∧ (i = pc + 1 ∨ i = pc + 2)) ∧
      (JumpAt code pc →
        operandAt code'.toList pc < code.size ∧
        (operandAt code.toList pc < code.size →
          ((operandAt code'.toList pc : Int) - operandAt code.toList pc).natAbs ≤ 5)) := by
  by_cases hjump : JumpAt code pc
  · obtain ⟨hlow, hhigh⟩ : -5 ≤ (m.rng.between (-5) 5).1 ∧ (m.rng.between (-5) 5).1 ≤ 5 :=
      Twister.between_bounds (by decide) m.rng
    have hpos : 0 < code.size := Nat.zero_lt_of_lt hjump.1
    have hlt := shiftedTarget_lt hpos (operandAt code.toList pc) (m.rng.between (-5) 5).1
    refine ⟨_, _, shiftJump_of_jumpAt hjump m, size_withOperand _ _ _, ?_, ?_⟩
    · exact fun i hi => ⟨hjump, of_getElem?_withOperand_ne hjump.1 hi⟩
    · intro _
      rw [operandAt_withOperand hjump.1 (by omega)]
      exact ⟨hlt, fun hold => Int.ofNat_le.1 (shiftedTarget_near hold hlow hhigh)⟩
  · refine ⟨code, m.rng, shiftJump_of_not_jumpAt hjump m, rfl, fun i hi => absurd rfl hi, ?_⟩
    exact fun h => absurd h hjump

/-- The longest code there is, with a jump at its very end. -/
theorem shifted_jumps_in_range_full :
    let code := Array.replicate 0x10000 Opcode.jump.byte
    code.size ≤ 0x10000 ∧ JumpAt code 0xFFFD ∧
      ∃ code' rng,
        (Mutator.ofSeed 0).shiftJump code (0xFFFD : Nat) = .ok (code', { Mutator.ofSeed 0 with rng }) ∧
        operandAt code'.toList 0xFFFD < 0x10000 ∧
        ((operandAt code'.toList 0xFFFD : Int) - 0x4040).natAbs ≤ 5 := by
  intro code
  have hsize : code.size = 0x10000 := Array.size_replicate
  have hbyte (i : Nat) (hi : i < 0x10000) : code[i]? = some Opcode.jump.byte := by simp [code, hi]
  have hjump : JumpAt code 0xFFFD := ⟨by rw [hsize]; decide, .inl (hbyte _ (by decide))⟩
  have hold : operandAt code.toList 0xFFFD = 0x4040 :=
    operandAt_eq (hbyte _ (by decide)) (hbyte _ (by decide))
  obtain ⟨code', rng, hshift, -, -, htarget⟩ :=
    shifted_jumps_in_range (Mutator.ofSeed 0) code 0xFFFD (Nat.le_of_eq hsize)
  obtain ⟨hlt, hnear⟩ := htarget hjump
  rw [hold, hsize] at hnear
  rw [hsize] at hlt
  exact ⟨Nat.le_of_eq hsize, hjump, code', rng, hshift, hlt, hnear (by decide)⟩

end Disguise

end Birokrasi
