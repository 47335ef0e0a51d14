import Birokrasi.Decimal.Root
import Birokrasi.Value.Arithmetic

/-!
# Prime numbers

Primality by trial division with the odd numbers up to the square root, which is calculated in doubles
(`HellModeCTF._is_prime`).
-/

namespace Birokrasi.Challenge

/-- Whether none of `count` numbers divides `n`, the first being `d` and each the next but one. -/
def noneDivides (n : Nat) : (count d : Nat) → Bool
  | 0, _ => true
  | count + 1, d => n % d != 0 && noneDivides n count (d + 2)

/-- The largest divisor tried: the integer part of the square root, taken in doubles. -/
def trialBound (n : Number) : Except Fault Int := do
  Number.intOfFloat (Decimal.sqrt (← n.toFloat))

/-- Trial division of a number of at least three that is odd or no integer. One that is no integer has
no divisors. -/
def tryDivisors (n : Number) (bound : Int) : Bool :=
  let count := ((bound - 1) / 2).toNat
  match n with
  | .int n => noneDivides n.toNat count 3
  | .float x =>
    match Decimal.fraction? x with
    | some (num, den) =>
      if num.toNat % den = 0 then noneDivides (num.toNat / den) count 3 else true
    | none => true

def isPrimeNumber (n : Number) : Except Fault Bool := do
  if n.less (.int 2) then return false
  if n.equal (.int 2) then return true
  if (← n.mod (.int 2)).equal (.int 0) then return false
  return tryDivisors n (← trialBound n)

def isPrime (v : Value) : Except Fault Bool :=
  match v.number? with
  | some n => isPrimeNumber n
  | none => .error (.order "<" v.kind .int)

end Birokrasi.Challenge
