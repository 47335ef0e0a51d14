import Birokrasi.Decimal.Read
import Birokrasi.Value.Arithmetic

/-!
# Conversions between values

The number that a value is taken for where a number is wanted, and waiting times.
-/

namespace Birokrasi.Value

/-- The double that a value is taken for: numbers are themselves, a text is read, and all else is
zero. -/
def asFloat : Value → Except Fault Float
  | .text s => .ok ((Decimal.readFloat? s.toList).getD 0.0)
  | v =>
    match v.number? with
    | some n => n.toFloat
    | Option.none => .ok 0.0

/-- Whether a time may be waited for: it must be a number that is not negative. -/
def waitable (time : Value) : Except Fault Unit :=
  match time.number? with
  | some (.float x) =>
    if x.isNaN then .error .sleepNan else if x < 0.0 then .error .sleepNegative else .ok ()
  | some (.int n) => if n < 0 then .error .sleepNegative else .ok ()
  | Option.none => .error (.operands "/" time.kind .float)

end Birokrasi.Value
