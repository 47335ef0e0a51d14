import Birokrasi.Value.Fault

/-!
# Numbers

Unbounded integers and doubles in one type. Two integers give an integer, but for the quotient;
with a double on one side the other becomes the nearest double first. Comparison is exact.
-/

namespace Birokrasi

inductive Number where
  | int (n : Int)
  | float (x : Float)

namespace Number

def floatOfInt (n : Int) : Except Fault Float :=
  match Decimal.ofInt? n with
  | some x => .ok x
  | none => .error .intTooLargeForFloat

def toFloat : Number → Except Fault Float
  | .int n => floatOfInt n
  | .float x => .ok x

def intOfFloat (x : Float) : Except Fault Int :=
  match Decimal.truncate? x with
  | some n => .ok n
  | none => .error (if x.isNaN then .nanToInt else .infinityToInt)

def toInt : Number → Except Fault Int
  | .int n => .ok n
  | .float x => intOfFloat x

def combine (onInts : Int → Int → Int) (onFloats : Float → Float → Float) :
    Number → Number → Except Fault Number
  | .int m, .int n => .ok (.int (onInts m n))
  | a, b => do return .float (onFloats (← a.toFloat) (← b.toFloat))

def add : Number → Number → Except Fault Number := combine (· + ·) (· + ·)

def sub : Number → Number → Except Fault Number := combine (· - ·) (· - ·)

def mul : Number → Number → Except Fault Number := combine (· * ·) (· * ·)

/-- The quotient, always a double. Of two integers it is the double nearest to the exact one. -/
def div : Number → Number → Except Fault Number
  | .int m, .int n =>
    if n = 0 then .error (.zeroDivisor .quotient)
    else
      match Decimal.nearest? ((m < 0) != (n < 0)) m.natAbs n.natAbs with
      | some x => .ok (.float (if m = 0 then 0.0 else x))
      | none => .error .quotientTooLarge
  | a, b => do
    let x ← a.toFloat
    let y ← b.toFloat
    if y == 0.0 then throw (.zeroDivisor .floatQuotient)
    return .float (x / y)

def floorDiv : Number → Number → Except Fault Number
  | .int m, .int n =>
    if n = 0 then .error (.zeroDivisor .wholeQuotient) else .ok (.int (Int.fdiv m n))
  | a, b => do
    let x ← a.toFloat
    let y ← b.toFloat
    if y == 0.0 then throw (.zeroDivisor .floatWholeQuotient)
    return .float (Decimal.floorDiv x y)

/-- The remainder, with the sign of the divisor. -/
def mod : Number → Number → Except Fault Number
  | .int m, .int n =>
    if n = 0 then .error (.zeroDivisor .wholeQuotient) else .ok (.int (Int.fmod m n))
  | a, b => do
    let x ← a.toFloat
    let y ← b.toFloat
    if y == 0.0 then throw (.zeroDivisor .floatRemainder)
    return .float (Decimal.floorMod x y)

/-- The order by exact value; `none` if one side is no number. -/
def compare? : Number → Number → Option Ordering
  | .int m, .int n => some (compare m n)
  | .int m, .float y => Decimal.compareInt? m y
  | .float x, .int n => (Decimal.compareInt? n x).map Ordering.swap
  | .float x, .float y => Decimal.compare? x y

def equal (a b : Number) : Bool := a.compare? b == some .eq

def less (a b : Number) : Bool := a.compare? b == some .lt

def greater (a b : Number) : Bool := a.compare? b == some .gt

def lessEq (a b : Number) : Bool := a.less b || a.equal b

def greaterEq (a b : Number) : Bool := a.greater b || a.equal b

def truthy : Number → Bool
  | .int n => n != 0
  | .float x => x != 0.0

def text : Number → String
  | .int n => Decimal.intText n
  | .float x => Decimal.shown x

end Number

end Birokrasi
