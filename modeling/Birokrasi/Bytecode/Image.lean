import Birokrasi.Bytecode.Opcode
import Birokrasi.Table
import Birokrasi.Value.Basic

/-!
# Compiled programs

An image is what the machine runs, `Bytecode` by its name in the sources of the language: the code, the
constants and texts that the code refers to by number, and the slots that the variables have been given.
-/

namespace Birokrasi.Bytecode

open Birokrasi.Text (Bytes)

structure Image where
  code : Bytes := []
  constants : List Value := []
  strings : List String := []
  /-- The slots of the variables, where they are known. -/
  slots : Table String Int := []
  version : Int := 0

structure Instr where
  op : Opcode
  operand : Nat := 0
  deriving DecidableEq

namespace Instr

def alwaysWide : Opcode → Bool
  | .push | .load | .store | .jump | .jumpIfFalse => true
  | _ => false

/-- Whether the operand is written. One that is zero is left out where the operation allows it. -/
def wide (i : Instr) : Bool := i.operand != 0 || alwaysWide i.op

/-- The bytes of an instruction: of the operand, the lowest sixteen bits. -/
def bytes (i : Instr) : Bytes :=
  i.op.byte :: (if i.wide then littleEndian 2 i.operand else [])

def size (i : Instr) : Nat := if i.wide then 3 else 1

@[simp] theorem length_bytes (i : Instr) : i.bytes.length = i.size := by
  by_cases h : i.wide <;> simp [bytes, size, h]

end Instr

/-- Whether code is read with an operand of two bytes after this operation. -/
def carriesOperand : Opcode → Bool
  | .push | .load | .store | .jump | .jumpIfFalse | .call => true
  | _ => false

/-- The place in a sequence of `size` items that an index stands for. A negative index counts from
the end. -/
def place? (size : Nat) (index : Int) : Option Nat :=
  let i := if index < 0 then index + size else index
  if 0 ≤ i ∧ i < size then some i.toNat else none

theorem place?_natCast (size i : Nat) : place? size i = if i < size then some i else none := by
  have hsign : ¬ (i : Int) < 0 := by omega
  simp [place?, hsign]

def assemble (is : List Instr) : Bytes := is.flatMap Instr.bytes

@[simp] theorem assemble_append (is js : List Instr) :
    assemble (is ++ js) = assemble is ++ assemble js := by
  simp [assemble]

end Birokrasi.Bytecode
