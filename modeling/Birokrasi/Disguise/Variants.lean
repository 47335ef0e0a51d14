import Birokrasi.Bytecode.Image
import Birokrasi.Random.Twister

/-!
# Variants of code

Code changed at random from generation to generation (`PolymorphicTransformer`): idle operations are put
in front of single bytes, and the six bytes in front of a sum or product are exchanged by halves.
-/

namespace Birokrasi.Disguise

open Birokrasi.Bytecode
open Birokrasi.Text (Bytes)

/-- Code with an idle operation in front of about each tenth byte. -/
def sledded : Bytes → Twister → Bytes × Twister
  | [], g => ([], g)
  | b :: rest, g =>
    let (u, g) := g.unit
    let (more, g) := sledded rest g
    (if u < 0.1 then Opcode.nop.byte :: b :: more else b :: more, g)

def isCommutative (b : UInt8) : Bool := b = Opcode.add.byte || b = Opcode.mul.byte

/-- Code with the two triples of bytes in front of place `i` exchanged, if there stands an operation
that allows it. -/
def exchangeAt (code : Array UInt8) (i : Nat) : Array UInt8 :=
  if (code[i]?.map isCommutative).getD false && 6 ≤ i then
    ((code.swapIfInBounds (i - 6) (i - 3)).swapIfInBounds (i - 5) (i - 2)).swapIfInBounds (i - 4)
      (i - 1)
  else code

def exchanged (code : Bytes) : Bytes :=
  ((List.range code.length).foldl exchangeAt code.toArray).toList

def changeChance : Float := 0.7

/-- A variant of code. The last of the three changes leaves the code as it is. -/
def variant (code : Bytes) (g : Twister) : Bytes × Twister :=
  let first := g.unit
  let slid := if first.1 < changeChance then sledded code first.2 else (code, first.2)
  let second := slid.2.unit
  let third := second.2.unit
  (if second.1 < changeChance then exchanged slid.1 else slid.1, third.2)

/-- The variants of code that follow it, each made from the one before with a seed of its own. -/
def generations : (count : Nat) → Bytes → Twister → List Bytes
  | 0, _, _ => []
  | count + 1, code, g =>
    let drawn := g.between 0 1000000
    let next := (variant code (Twister.ofSeed drawn.1)).1
    next :: generations count next drawn.2

def lineage (code : Bytes) (count : Nat) (seed : Int) : List Bytes :=
  code :: generations count code (Twister.ofSeed seed)

end Birokrasi.Disguise
