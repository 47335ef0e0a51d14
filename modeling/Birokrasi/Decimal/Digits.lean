import Birokrasi.Decimal.Binary

/-!
# Decimal digits of doubles

Three ways to choose digits for a double, each by exact integer arithmetic: the fewest that read
back (`shortest`), a number of significant digits (`significant`), and a number of places after the
point (`places`). How digits are laid out as text is another matter.
-/

namespace Birokrasi.Decimal

/-- The number `0 < x` with the given digits, of which the first stands for `10 ^ exponent`. The
last digit is not zero. -/
structure Digits where
  digits : List Char
  exponent : Int

def natDigits (n : Nat) : List Char := Nat.toDigits 10 n

def Digits.ofCoefficient (coefficient : Nat) (grid : Int) : Digits :=
  let ds := natDigits coefficient
  let kept := (ds.reverse.dropWhile (· = '0')).reverse
  ⟨kept, grid + (ds.length : Int) - 1⟩

def reachesPower (num den : Nat) (k : Int) : Bool :=
  if 0 ≤ k then den * Nat.pow 10 k.toNat ≤ num else den ≤ num * Nat.pow 10 (-k).toNat

/-- The `k` with `10 ^ k ≤ num / den < 10 ^ (k + 1)`. The logarithm to base two gives it but for
one. -/
def leadingPower (num den : Nat) : Int :=
  let guess : Int := Int.fdiv (((num.log2 : Int) - den.log2) * 30103) 100000
  if reachesPower num den (guess + 1) then guess + 1
  else if reachesPower num den guess then guess
  else guess - 1

def overTen (num den : Nat) (grid : Int) : Nat × Nat :=
  if 0 ≤ grid then (num, den * Nat.pow 10 grid.toNat)
  else (num * Nat.pow 10 (-grid).toNat, den)

def compareGrid (coefficient : Nat) (grid : Int) (num den : Nat) : Ordering :=
  if 0 ≤ grid then compare (coefficient * Nat.pow 10 grid.toNat * den) num
  else compare (coefficient * den) (num * Nat.pow 10 (-grid).toNat)

/-- The reals that round to one double: a centre between two ends, over one denominator. -/
structure Neighbourhood where
  low : Nat
  centre : Nat
  high : Nat
  den : Nat
  closed : Bool

/-- The neighbourhood of `mantissa · 2 ^ exponent`. Below a power of two the doubles lie twice as
dense; the ends belong to it if the mantissa is even. -/
def Neighbourhood.ofParts (mantissa : Nat) (exponent : Int) : Neighbourhood :=
  let below := if mantissa = 1 <<< 52 ∧ -1074 < exponent then 1 else 2
  let (factor, den) :=
    if 2 ≤ exponent then (1 <<< (exponent - 2).toNat, 1) else (1, 1 <<< (2 - exponent).toNat)
  ⟨(4 * mantissa - below) * factor, 4 * mantissa * factor, (4 * mantissa + 2) * factor, den,
    mantissa % 2 = 0⟩

def Neighbourhood.onGrid? (r : Neighbourhood) (grid : Int) : Option Nat :=
  let (n, d) := overTen r.centre r.den grid
  let c := n / d
  let lowHit :=
    match compareGrid c grid r.low r.den with
    | .gt => true
    | .eq => r.closed
    | .lt => false
  let highHit :=
    match compareGrid (c + 1) grid r.high r.den with
    | .lt => true
    | .eq => r.closed
    | .gt => false
  if lowHit && highHit then some (roundDiv n d)
  else if lowHit then some c
  else if highHit then some (c + 1)
  else none

/-- The first grid, from coarse to fine, with a decimal in the neighbourhood; seventeen digits
always suffice. -/
def Neighbourhood.search (r : Neighbourhood) (grid : Int) : Nat → Digits
  | 0 => .ofCoefficient (let (n, d) := overTen r.centre r.den grid; roundDiv n d) grid
  | fuel + 1 =>
    match r.onGrid? grid with
    | some c => .ofCoefficient c grid
    | none => r.search (grid - 1) fuel

/-- The fewest digits that read back as `mantissa · 2 ^ exponent`, the nearest of those. -/
def shortest (mantissa : Nat) (exponent : Int) : Digits :=
  let r := Neighbourhood.ofParts mantissa exponent
  r.search (leadingPower r.centre r.den) 16

def significant (count num den : Nat) : Digits :=
  let grid := leadingPower num den - (count : Int) + 1
  let (n, d) := overTen num den grid
  .ofCoefficient (roundDiv n d) grid

def places (count num den : Nat) : Nat := roundDiv (num * Nat.pow 10 count) den

end Birokrasi.Decimal
