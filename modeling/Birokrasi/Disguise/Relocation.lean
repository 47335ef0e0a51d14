import Birokrasi.Disguise.Mapping

/-!
# Relocated code

Code is split into its instructions (`BytecodeAnalyzer`), idle instructions are put between them, and the
jumps are made to lead to the same instructions as before (`obfuscate_bytecode`).
-/

namespace Birokrasi.Disguise

open Birokrasi.Bytecode
open Birokrasi.Text (Bytes)

/-- An instruction found in code. One that has been put in has no address of its own. -/
structure Piece where
  op : UInt8
  operand : Bytes := []
  address : Option Nat := none

namespace Piece

def size (p : Piece) : Nat := 1 + p.operand.length

def bytes (p : Piece) : Bytes := p.op :: p.operand

def idle : Piece where
  op := Opcode.nop.byte

/-- Whether an instruction is a jump with a whole operand. -/
def isJump (p : Piece) : Bool :=
  (p.op = Opcode.jump.byte || p.op = Opcode.jumpIfFalse.byte) && p.operand.length = 2

end Piece

/-- The instructions of code whose first byte is at `address`. An operand that is cut off is not
read as one. -/
def piecesFrom (address : Nat) : (code : Bytes) → List Piece
  | [] => []
  | b :: low :: high :: rest =>
    if ((Opcode.ofByte? b).filter carriesOperand).isSome then
      ⟨b, [low, high], some address⟩ :: piecesFrom (address + 3) rest
    else ⟨b, [], some address⟩ :: piecesFrom (address + 1) (low :: high :: rest)
  | b :: rest => ⟨b, [], some address⟩ :: piecesFrom (address + 1) rest

def pieces (code : Bytes) : List Piece := piecesFrom 0 code

def idleChance : Float := 0.2

def secondChance : Float := 0.3

def withIdle : List Piece → Twister → List Piece
  | [], _ => []
  | p :: rest, g =>
    let (u, g) := g.unit
    if u < idleChance then
      let (u, g) := g.unit
      if u < secondChance then Piece.idle :: Piece.idle :: p :: withIdle rest g
      else Piece.idle :: p :: withIdle rest g
    else p :: withIdle rest g

/-- The new addresses of instructions that start at `start`, by their old ones, and the address
after them. -/
def addressesFrom (start : Nat) : List Piece → Table Nat Nat × Nat
  | [] => ([], start)
  | p :: rest =>
    let (table, last) := addressesFrom (start + p.size) rest
    match p.address with
    | some a => ((a, start) :: table, last)
    | none => (table, last)

/-- The operand of a jump with its new target: an instruction goes along with its address, and the
end of the code with the new end. Any other target stays. -/
def retarget (table : Table Nat Nat) (oldEnd newEnd : Nat) (operand : Bytes) :
    Except Fault Bytes :=
  let target := ofLittleEndian operand
  match table.get? target <|> (if target = oldEnd then some newEnd else none) with
  | some new => if new < 0x10000 then .ok (littleEndian 2 new) else .error .shortRange
  | none => .ok operand

def relocate (oldEnd : Nat) (ps : List Piece) : Except Fault (List Piece) :=
  -- The table has no entry for an address inside of an instruction, so a jump to one is left as it is.
  let (table, newEnd) := addressesFrom 0 ps
  ps.mapM fun p => do
    if p.isJump then return { p with operand := ← retarget table oldEnd newEnd p.operand }
    else return p

/-- Code disguised by a seed. From the second level on, idle instructions are put in. -/
def disguise (code : Bytes) (seed level : Int) : Except Fault Bytes := do
  let mapping := Mapping.ofSeed seed
  let ps := pieces code
  let ps := if 2 ≤ level then withIdle ps (Twister.ofSeed seed) else ps
  let ps ← relocate code.length ps
  return ps.flatMap fun p => mapping.conceal p.op :: p.operand

end Birokrasi.Disguise
