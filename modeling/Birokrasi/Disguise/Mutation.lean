import Birokrasi.Bytecode.Image
import Birokrasi.Random.Twister

/-!
# Code that changes while it runs

A mutator (`RuntimeMutator`) wipes out operations that take money, from the second one on, and may shift
the targets of jumps. Rules (`SelfModifyEngine`) say which operations are wiped out after how many steps.
-/

namespace Birokrasi.Disguise

open Birokrasi.Bytecode

structure Mutator where
  rng : Twister
  /-- How many operations that take money have been seen. -/
  counter : Nat := 0
  changed : List Int := []

def writeByte (code : Array UInt8) (index : Int) (b : UInt8) : Except Fault (Array UInt8) :=
  match place? code.size index with
  | some i => .ok (code.setIfInBounds i b)
  | none => .error (.indexRange .buffer)

def readByte (code : Array UInt8) (index : Int) : Except Fault UInt8 :=
  match (place? code.size index).bind fun i => code[i]? with
  | some b => .ok b
  | none => .error (.indexRange .buffer)

theorem writeByte_natCast (code : Array UInt8) (i : Nat) (b : UInt8) :
    writeByte code i b =
      if i < code.size then .ok (code.setIfInBounds i b) else .error (.indexRange .buffer) := by
  rw [writeByte, place?_natCast]
  by_cases h : i < code.size
  · rw [if_pos h, if_pos h]
  · rw [if_neg h, if_neg h]

theorem readByte_of_getElem? {code : Array UInt8} {i : Nat} {b : UInt8} (h : code[i]? = some b) :
    readByte code i = .ok b := by
  obtain ⟨hlt, -⟩ := Array.getElem?_eq_some_iff.1 h
  rw [readByte, place?_natCast, if_pos hlt, Option.bind_some, h]

namespace Mutator

def ofSeed (seed : Int) : Mutator := { rng := Twister.ofSeed seed }

/-- The change after an operation, with the run now at `pc`. -/
def afterOperation (m : Mutator) (code : Array UInt8) (pc op : Int) :
    Except Fault (Array UInt8 × Mutator) := do
  if m.changed.contains pc || op ≠ Opcode.embezzle.byte.toNat then return (code, m)
  if 1 ≤ m.counter then
    -- Behind the last byte of the code there is nothing to wipe out, which is a fault.
    let code ← writeByte code pc Opcode.nop.byte
    return (code, { m with counter := m.counter + 1, changed := pc :: m.changed })
  else return (code, { m with counter := m.counter + 1 })

def reach : Int := 5

/-- A jump with its target shifted a little, within the code. -/
def shiftJump (m : Mutator) (code : Array UInt8) (pc : Int) :
    Except Fault (Array UInt8 × Mutator) := do
  if code.size ≤ pc + 2 then return (code, m)
  let op ← readByte code pc
  if op = Opcode.jump.byte || op = Opcode.jumpIfFalse.byte then
    let low ← readByte code (pc + 1)
    let high ← readByte code (pc + 2)
    let (offset, rng) := m.rng.between (-reach) reach
    let target : Int := max 0 (min ((code.size : Int) - 1) (low.toNat + 256 * high.toNat + offset))
    let code ← writeByte code (pc + 1) (target % 256).toNat.toUInt8
    let code ← writeByte code (pc + 2) (target / 256 % 256).toNat.toUInt8
    return (code, { m with rng })
  else return (code, m)

end Mutator

/-! ## Rules -/

/-- Which operations are wiped out after how many steps. -/
abbrev Rules := Table Int (List Int)

namespace Rules

/-- The rules to start with: taking money is wiped out after five steps. -/
def initial : Rules := [(Opcode.embezzle.byte.toNat, [5])]

def limits (rules : Rules) (op : Int) : List Int := (rules.get? op).getD []

def add (rules : Rules) (op above : Int) : Rules := rules.put op (rules.limits op ++ [above])

/-- Whether an operation is to be wiped out after so many steps; `none` if the number of steps is
wanted and not known. -/
def applies? (rules : Rules) (op : Int) (steps : Option Int) : Option Bool :=
  match rules.limits op, steps with
  | [], _ => some false
  | _ :: _, none => none
  | limits, some n => some (limits.any (· < n))

def wipe (rules : Rules) (code : Array UInt8) (pc op : Int) : Except Fault (Array UInt8) :=
  (rules.limits op).foldlM (fun code _ => writeByte code pc Opcode.nop.byte) code

end Rules

end Birokrasi.Disguise
