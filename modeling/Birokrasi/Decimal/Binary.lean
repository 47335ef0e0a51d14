/-!
# Double-precision numbers as exact fractions

A finite double is `mantissa · 2 ^ exponent`. This module takes doubles apart, compares and rounds
them by exact integer arithmetic, and finds the double nearest to a fraction.
-/

namespace Birokrasi.Decimal

inductive Binary where
  | nan
  | infinite (negative : Bool)
  | finite (negative : Bool) (mantissa : Nat) (exponent : Int)

def Binary.ofFloat (x : Float) : Binary :=
  let bits := x.toBits.toNat
  let negative := decide (1 <<< 63 ≤ bits)
  let field : Nat := (bits >>> 52) % 2048
  let fraction := bits % (1 <<< 52)
  if field = 2047 then if fraction = 0 then .infinite negative else .nan
  else if field = 0 then .finite negative fraction (-1074)
  else .finite negative (1 <<< 52 + fraction) (field - 1075)

def nan : Float := Float.ofBits 0x7FF8000000000000

def infinity (negative : Bool) : Float :=
  Float.ofBits (if negative then 0xFFF0000000000000 else 0x7FF0000000000000)

def signBit (x : Float) : Bool := decide (1 <<< 63 ≤ x.toBits.toNat)

/-- The quotient of two numbers rounded to the nearest integer, a half to the even one. -/
def roundDiv (num den : Nat) : Nat :=
  let q := num / den
  let r := num % den
  if 2 * r < den then q
  else if den < 2 * r then q + 1
  else if q % 2 = 0 then q else q + 1

/-- `num / den` divided by `2 ^ e`, as a fraction. -/
def overPower (num den : Nat) (e : Int) : Nat × Nat :=
  if 0 ≤ e then (num, den <<< e.toNat) else (num <<< (-e).toNat, den)

/-- The double `mantissa · 2 ^ exponent` for a mantissa of at most `2 ^ 53`, less than `2 ^ 52` only
under the least exponent; `none` if it is too large. -/
def pack? (negative : Bool) (mantissa : Nat) (exponent : Int) : Option Float :=
  let (m, e) := if mantissa = 1 <<< 53 then (1 <<< 52, exponent + 1) else (mantissa, exponent)
  let sign := if negative then 1 <<< 63 else 0
  if m < 1 <<< 52 then some (Float.ofBits (UInt64.ofNat (sign + m)))
  else
    let field := (e + 1075).toNat
    if 2047 ≤ field then none
    else some (Float.ofBits (UInt64.ofNat (sign + field <<< 52 + (m - 1 <<< 52))))

/-- The double nearest to `num / den`, a half going to the even mantissa; `none` beyond the largest
double. -/
def nearest? (negative : Bool) (num den : Nat) : Option Float :=
  if num = 0 then pack? negative 0 (-1074)
  else
    let e0 : Int := (num.log2 : Int) - den.log2 - 53
    let (n, d) := overPower num den e0
    let e := max (if n / d < 1 <<< 53 then e0 else e0 + 1) (-1074)
    let (n, d) := overPower num den e
    pack? negative (roundDiv n d) e

def ofInt? (n : Int) : Option Float := nearest? (n < 0) n.natAbs 1

/-- The integer part of a finite double; `none` for the others. -/
def truncate? (x : Float) : Option Int :=
  match Binary.ofFloat x with
  | .finite negative m e =>
    let n : Nat := if 0 ≤ e then m <<< e.toNat else m >>> (-e).toNat
    some (if negative then -(n : Int) else n)
  | _ => none

def scaled (m : Nat) (e : Int) : Nat × Nat :=
  if 0 ≤ e then (m <<< e.toNat, 1) else (m, 1 <<< (-e).toNat)

/-- A finite double as a fraction with a positive denominator. -/
def fraction? (x : Float) : Option (Int × Nat) :=
  match Binary.ofFloat x with
  | .finite negative m e =>
    let (n, d) := scaled m e
    some (if negative then -(n : Int) else n, d)
  | _ => none

/-- The order of an integer and a double by their exact values; `none` if the double is no number. -/
def compareInt? (n : Int) (x : Float) : Option Ordering :=
  match Binary.ofFloat x with
  | .nan => none
  | .infinite negative => some (if negative then .gt else .lt)
  | .finite negative m e =>
    let m : Int := if negative then -(m : Int) else m
    let power : Nat := 1 <<< e.natAbs
    some (if 0 ≤ e then compare n (m * power) else compare (n * power) m)

def compare? (x y : Float) : Option Ordering :=
  if x < y then some .lt else if y < x then some .gt else if x == y then some .eq else none

/-- The remainder of two doubles with the sign of the first, which is exact. -/
def remainder (x y : Float) : Float :=
  match Binary.ofFloat x, Binary.ofFloat y with
  | .finite negative m e, .finite _ m' e' =>
    if m' = 0 then nan
    else
      let least := min e e'
      let r := (m <<< (e - least).toNat) % (m' <<< (e' - least).toNat)
      let (n, d) := scaled r least
      (nearest? negative n d).getD nan
  | .finite .., .infinite _ => x
  | _, _ => nan

def zeroLike (x : Float) : Float := if signBit x then -0.0 else 0.0

/-- The remainder of two doubles with the sign of the divisor, which is not zero. -/
def floorMod (x y : Float) : Float :=
  let r := remainder x y
  if r == 0.0 then zeroLike y
  else if decide (y < 0.0) != decide (r < 0.0) then r + y else r

def floor (x : Float) : Float :=
  match Binary.ofFloat x with
  | .finite negative m e =>
    if 0 ≤ e then x
    else
      let d := 1 <<< (-e).toNat
      let n := if negative then (m + d - 1) / d else m / d
      (nearest? negative n 1).getD x
  | _ => x

def floorDiv (x y : Float) : Float :=
  let r := remainder x y
  let q := (x - r) / y
  let q := if r != 0.0 && decide (y < 0.0) != decide (r < 0.0) then q - 1.0 else q
  if q == 0.0 then zeroLike (x / y)
  else
    let f := floor q
    if q - f > 0.5 then f + 1.0 else f

end Birokrasi.Decimal
