import Birokrasi.Decimal.Binary

/-!
# Square roots

The integer square root, and the square root of a double rounded to nearest.
-/

namespace Birokrasi.Decimal

/-- The largest number whose square is at most `n`, found bit by bit from `bits` down. -/
def rootFrom (n : Nat) : (bits root : Nat) → Nat
  | 0, root => root
  | bits + 1, root =>
    let next := root + 1 <<< bits
    rootFrom n bits (if next * next ≤ n then next else root)

def natSqrt (n : Nat) : Nat := rootFrom n (n.log2 / 2 + 1) 0

/-- The double nearest to the square root of a fraction: a bit more than its digits are calculated
exactly, and anything beyond them counts as a half at most. -/
def sqrtFraction (num den : Nat) : Float :=
  -- the quotient scaled by `4 ^ k` has a root of at least 56 bits
  let k := 60 + (den.log2 + 1)
  let shifted := num <<< (2 * k)
  let r := natSqrt (shifted / den)
  let sticky := if r * r * den = shifted then 0 else 1
  (nearest? false (2 * r + sticky) (1 <<< (k + 1))).getD 0.0

def sqrt (x : Float) : Float :=
  match fraction? x with
  | some (num, den) =>
    if num < 0 then nan else if num = 0 then x else sqrtFraction num.toNat den
  | none => if x == infinity false then x else nan

end Birokrasi.Decimal
