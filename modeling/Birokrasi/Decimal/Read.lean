import Birokrasi.Decimal.Binary
import Birokrasi.Text.Blank
import Birokrasi.Text.Class

/-!
# Reading numbers

Integers and decimal fractions from text. Blanks around the number are allowed, decimal digits of
any script count, and a single underscore may stand between two digits.
-/

namespace Birokrasi.Decimal

open Birokrasi.Text

/-- A text without blanks around it and with every decimal digit in ASCII. -/
def plainNumeral (s : List Char) : List Char :=
  (trim s).map fun c =>
    match decimalDigit? c with
    | some d => Char.ofNat (48 + d)
    | none => c

def startsWithDigit : List Char → Bool
  | [] => false
  | c :: _ => c.isDigit

/-- The digits at the front of a text and the rest of it. An underscore between two digits is
dropped; `inside` says that a digit stands before the text. -/
def digitsFrom : (inside : Bool) → List Char → List Char × List Char
  | _, [] => ([], [])
  | inside, c :: s =>
    if c.isDigit then
      let (ds, rest) := digitsFrom true s
      (c :: ds, rest)
    else if c = '_' && inside && startsWithDigit s then digitsFrom false s
    else ([], c :: s)

def takeDigits (s : List Char) : List Char × List Char := digitsFrom false s

def takeSign : List Char → Bool × List Char
  | '-' :: s => (true, s)
  | '+' :: s => (false, s)
  | s => (false, s)

def digitsValue (ds : List Char) : Nat := ds.foldl (fun n c => n * 10 + (c.toNat - 48)) 0

inductive NotInteger where
  | malformed
  | tooLong (count : Nat)

def digitLimit : Nat := 4300

def readInt (s : List Char) : Except NotInteger Int :=
  let (negative, s) := takeSign (plainNumeral s)
  match takeDigits s with
  | ([], _) => .error .malformed
  | (ds, []) =>
    if digitLimit < ds.length then .error (.tooLong ds.length)
    else .ok (if negative then -(digitsValue ds : Int) else digitsValue ds)
  | (_, _ :: _) => .error .malformed

/-- The double nearest to `digits · 10 ^ exponent`. Far outside the range of doubles the answer is
an infinity or a zero, whatever the digits. -/
def ofScientific (negative : Bool) (digits : List Char) (exponent : Int) : Float :=
  let ds := digits.dropWhile (· = '0')
  let top := exponent + (ds.length : Int)
  if ds.isEmpty || top < -400 then if negative then -0.0 else 0.0
  else if 400 < top then infinity negative
  else
    let n := digitsValue ds
    let power := Nat.pow 10 exponent.natAbs
    let (n, d) := if 0 ≤ exponent then (n * power, 1) else (n, power)
    (nearest? negative n d).getD (infinity negative)

def readExponent? : List Char → Option Int
  | [] => some 0
  | c :: s =>
    if c = 'e' || c = 'E' then
      let (negative, s) := takeSign s
      match takeDigits s with
      | (d :: ds, []) =>
        let n := digitsValue (d :: ds)
        some (if negative then -(n : Int) else n)
      | _ => none
    else none

/-- The number that a text stands for, as the nearest double. The words for an infinity and for no
number are accepted in any case. -/
def readFloat? (s : List Char) : Option Float :=
  let (negative, s) := takeSign (plainNumeral s)
  let word := String.ofList (s.map Char.toLower)
  if word = "inf" || word = "infinity" then some (infinity negative)
  else if word = "nan" then some nan
  else
    let (whole, rest) := takeDigits s
    let (part, rest) :=
      match rest with
      | '.' :: rest => takeDigits rest
      | rest => ([], rest)
    if whole.isEmpty && part.isEmpty then none
    else
      (readExponent? rest).map fun e =>
        ofScientific negative (whole ++ part) (e - (part.length : Int))

end Birokrasi.Decimal
