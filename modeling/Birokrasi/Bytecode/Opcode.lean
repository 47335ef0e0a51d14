import Birokrasi.Text.Utf8

/-!
# Operation codes

The operations of the machine with their byte (`OP_…`) and their name. `ofByte?_byte` says that the bytes
tell the operations apart.
-/

namespace Birokrasi.Bytecode

inductive Opcode where
  | nop
  | push
  | pop
  | load
  | store
  | print
  | add
  | sub
  | mul
  | div
  | mod
  | eq
  | lt
  | gt
  | jump
  | jumpIfFalse
  | call
  | ret
  /-- Takes a percentage of the budget. -/
  | embezzle
  /-- Gives the project up. -/
  | stall
  /-- Goes back to the start of a meeting that is not over. -/
  | meeting
  | sleep
  | finish
  deriving DecidableEq

namespace Opcode

def all : List Opcode :=
  [nop, push, pop, load, store, print, add, sub, mul, div, mod, eq, lt, gt, jump, jumpIfFalse, call,
    ret, embezzle, stall, meeting, sleep, finish]

def byte : Opcode → UInt8
  | nop => 0x00
  | push => 0x01
  | pop => 0x02
  | load => 0x03
  | store => 0x04
  | print => 0x10
  | add => 0x20
  | sub => 0x21
  | mul => 0x22
  | div => 0x23
  | mod => 0x24
  | eq => 0x30
  | lt => 0x31
  | gt => 0x32
  | jump => 0x40
  | jumpIfFalse => 0x41
  | call => 0x50
  | ret => 0x51
  | embezzle => 0x60
  | stall => 0x61
  | meeting => 0x62
  | sleep => 0x70
  | finish => 0xFF

def name : Opcode → String
  | nop => "NOP"
  | push => "PUSH"
  | pop => "POP"
  | load => "LOAD"
  | store => "STORE"
  | print => "PRINT"
  | add => "ADD"
  | sub => "SUB"
  | mul => "MUL"
  | div => "DIV"
  | mod => "MOD"
  | eq => "EQ"
  | lt => "LT"
  | gt => "GT"
  | jump => "JUMP"
  | jumpIfFalse => "JIF"
  | call => "CALL"
  | ret => "RET"
  | embezzle => "KORUPSI"
  | stall => "MANGKRAK"
  | meeting => "RAPAT"
  | sleep => "SLEEP"
  | finish => "END"

def ofByte? (b : UInt8) : Option Opcode := all.find? (·.byte = b)

@[simp] theorem ofByte?_byte (op : Opcode) : ofByte? op.byte = some op := by
  cases op <;> decide

theorem byte_injective {a b : Opcode} (h : a.byte = b.byte) : a = b := by
  have := congrArg ofByte? h
  simpa using this

end Opcode

/-- The name of a byte in listings: a byte that is no operation is shown by its number. -/
def byteName (b : UInt8) : String :=
  match Opcode.ofByte? b with
  | some op => op.name
  | none => "UNK(" ++ String.ofList (Text.upperAscii (Text.hex 2 b.toNat)) ++ ")"

/-- The lowest `width` bytes of a number, the lowest first. -/
def littleEndian : (width n : Nat) → Text.Bytes
  | 0, _ => []
  | width + 1, n => (n % 256).toUInt8 :: littleEndian width (n / 256)

def ofLittleEndian : Text.Bytes → Nat
  | [] => 0
  | b :: rest => b.toNat + 256 * ofLittleEndian rest

@[simp] theorem length_littleEndian (width n : Nat) : (littleEndian width n).length = width := by
  induction width generalizing n with
  | zero => rfl
  | succ width ih => simp [littleEndian, ih]

theorem ofLittleEndian_littleEndian (width n : Nat) (h : n < Nat.pow 256 width) :
    ofLittleEndian (littleEndian width n) = n := by
  induction width generalizing n with
  | zero => simp_all [littleEndian, ofLittleEndian]
  | succ width ih =>
    have h : n < Nat.pow 256 width * 256 := h
    have hq : n / 256 < Nat.pow 256 width := Nat.div_lt_of_lt_mul (by omega)
    have hm : n % 256 < 256 := Nat.mod_lt _ (by decide)
    simp only [littleEndian, ofLittleEndian, ih _ hq]
    have : (n % 256).toUInt8.toNat = n % 256 := by
      simp
    omega

end Birokrasi.Bytecode
