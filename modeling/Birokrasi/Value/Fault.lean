import Birokrasi.Decimal.Layout
import Birokrasi.Text.Utf8

/-!
# Faults of values

What can go wrong when values are combined, converted or stored, with the wording of each fault.
-/

namespace Birokrasi

inductive Kind where
  | none
  | bool
  | int
  | float
  | text
  | list
  | tuple
  | record
  deriving DecidableEq

def Kind.name : Kind → String
  | .none => "NoneType"
  | .bool => "bool"
  | .int => "int"
  | .float => "float"
  | .text => "str"
  | .list => "list"
  | .tuple => "tuple"
  | .record => "dict"

inductive ZeroDivisor where
  | quotient
  | floatQuotient
  | wholeQuotient
  | floatWholeQuotient
  | floatRemainder

def ZeroDivisor.text : ZeroDivisor → String
  | .quotient => "division by zero"
  | .floatQuotient => "float division by zero"
  | .wholeQuotient => "integer division or modulo by zero"
  | .floatWholeQuotient => "float floor division by zero"
  | .floatRemainder => "float modulo"

inductive Indexed where
  | list
  | tuple
  | text
  | bytes
  | buffer

def Indexed.rangeText : Indexed → String
  | .list => "list index out of range"
  | .tuple => "tuple index out of range"
  | .text => "string index out of range"
  | .bytes => "index out of range"
  | .buffer => "bytearray index out of range"

inductive Fault where
  /-- An operator that the two kinds do not have. -/
  | operands (op : String) (left right : Kind)
  /-- A text, list or tuple joined with another kind. -/
  | concatenation (left right : Kind)
  /-- A sequence repeated by something that is no integer. -/
  | repetition (count : Kind)
  | order (op : String) (left right : Kind)
  /-- A text used as a form for values that it does not take. -/
  | unusedArguments
  | noLength (kind : Kind)
  | zeroDivisor (how : ZeroDivisor)
  | infinityToInt
  | nanToInt
  | intTooLargeForFloat
  | quotientTooLarge
  | repetitionTooLong
  | outOfMemory
  | notAnInt (text : String)
  | tooManyDigits (count : Nat)
  | emptyPop
  | indexRange (sequence : Indexed)
  | sampleSize
  | bytesTooFew
  | bytesNegative
  | shortRange
  | circular
  | keyKind (kind : Kind)
  | sleepNan
  | sleepNegative
  | noSuchFile (path : String)
  | isDirectory (path : String)
  | notDirectory (path : String)
  | nameTooLong (path : String)
  | embeddedZero
  | notText (error : Text.Utf8Error)
  | endOfInput
  | emptySeparator

def Fault.message : Fault → String
  | .operands op l r =>
    "unsupported operand type(s) for " ++ op ++ ": '" ++ l.name ++ "' and '" ++ r.name ++ "'"
  | .concatenation l r =>
    "can only concatenate " ++ l.name ++ " (not \"" ++ r.name ++ "\") to " ++ l.name
  | .repetition k => "can't multiply sequence by non-int of type '" ++ k.name ++ "'"
  | .order op l r =>
    "'" ++ op ++ "' not supported between instances of '" ++ l.name ++ "' and '" ++ r.name ++ "'"
  | .unusedArguments => "not all arguments converted during string formatting"
  | .noLength k => "object of type '" ++ k.name ++ "' has no len()"
  | .zeroDivisor how => how.text
  | .infinityToInt => "cannot convert float infinity to integer"
  | .nanToInt => "cannot convert float NaN to integer"
  | .intTooLargeForFloat => "int too large to convert to float"
  | .quotientTooLarge => "integer division result too large for a float"
  | .repetitionTooLong => "cannot fit 'int' into an index-sized integer"
  | .outOfMemory => ""
  | .notAnInt text => "invalid literal for int() with base 10: " ++ Text.quoted text
  | .tooManyDigits n =>
    "Exceeds the limit (4300 digits) for integer string conversion: value has " ++ toString n ++
      " digits; use sys.set_int_max_str_digits() to increase the limit"
  | .emptyPop => "pop from empty list"
  | .indexRange sequence => sequence.rangeText
  | .sampleSize => "Sample larger than population or is negative"
  | .bytesTooFew => "int too big to convert"
  | .bytesNegative => "can't convert negative int to unsigned"
  | .shortRange => "ushort format requires 0 <= number <= 65535"
  | .circular => "Circular reference detected"
  | .keyKind k => "keys must be str, int, float, bool or None, not " ++ k.name
  | .sleepNan => "Invalid value NaN (not a number)"
  | .sleepNegative => "sleep length must be non-negative"
  | .noSuchFile path => "[Errno 2] No such file or directory: " ++ Text.quoted path
  | .isDirectory path => "[Errno 21] Is a directory: " ++ Text.quoted path
  | .notDirectory path => "[Errno 20] Not a directory: " ++ Text.quoted path
  | .nameTooLong path => "[Errno 36] File name too long: " ++ Text.quoted path
  | .embeddedZero => "embedded null byte"
  | .notText e => e.message
  | .endOfInput => "EOF when reading a line"
  | .emptySeparator => "empty separator"

end Birokrasi
