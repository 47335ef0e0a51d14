import Birokrasi.Bytecode.Image
import Birokrasi.Random.Twister

/-!
# Mapped operations

A mapping (`OpcodeMapper`) hides the operations behind bytes drawn from a seed. Bytes that are no
operation stay as they are, in both directions.
-/

namespace Birokrasi.Disguise

open Birokrasi.Bytecode
open Birokrasi.Text (Bytes)

structure Mapping where
  seed : Int
  /-- The operations with the bytes that stand for them, in the order of the operations. -/
  forward : Table UInt8 UInt8
  rng : Twister

namespace Mapping

def cover : List UInt8 := (List.range 0xE0).map fun i => (0x10 + i).toUInt8

/-- The mapping that hides the operations behind bytes in the order drawn. -/
def ofDraw (seed : Int) (drawn : List UInt8 × Twister) : Mapping where
  seed
  forward := (Opcode.all.map Opcode.byte).zip drawn.1
  rng := drawn.2

def ofSeed (seed : Int) : Mapping := ofDraw seed ((Twister.ofSeed seed).shuffle cover)

def conceal (m : Mapping) (b : UInt8) : UInt8 := (m.forward.get? b).getD b

def reveal (m : Mapping) (b : UInt8) : UInt8 :=
  (Table.get? b (m.forward.map Prod.swap)).getD b

/-- A function of bytes on all integers: those that are no byte stay as they are. -/
def onBytes (f : UInt8 → UInt8) (n : Int) : Int :=
  if 0 ≤ n ∧ n < 256 then (f n.toNat.toUInt8).toNat else n

def unused (m : Mapping) : List UInt8 := cover.filter fun b => !(m.forward.map Prod.snd).contains b

/-- So many different unused bytes, or all of them. -/
def decoys (count : Int) (m : Mapping) : Except Fault (List UInt8 × Mapping) := do
  let free := m.unused
  let (drawn, rng) ← m.rng.sample free (min count free.length)
  return (drawn, { m with rng })

/-! ## Files -/

def magic : Bytes := [0x48, 0x42, 0x4F, 0x50]

def file (seed : Int) : Except Fault Bytes :=
  if seed < 0 then .error .bytesNegative
  else if 0x100000000 ≤ seed then .error .bytesTooFew
  else
    .ok (magic ++ littleEndian 4 seed.toNat ++
      (ofSeed seed).forward.flatMap fun e => [e.1, e.2])

/-- The mapping in a file; only its seed is read. `none` if it is no such file. -/
def load? (file : Bytes) : Option Mapping :=
  if file.take 4 = magic then some (ofSeed (ofLittleEndian ((file.drop 4).take 4))) else none

def invalidFile : String := "Invalid opcode table file"

end Mapping

end Birokrasi.Disguise
