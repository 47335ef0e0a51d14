import Birokrasi.Value.Basic

/-!
# Writing JSON

A value as JSON text. Tuples become arrays, keys become texts, and the numbers that JSON lacks are
written as words. A container inside itself has no such text.
-/

namespace Birokrasi.Json

open Birokrasi.Text

/-- One character of a string; above ASCII as it is or as UTF-16 units. -/
def escape (ascii : Bool) (c : Char) : List Char :=
  if c = '"' then ['\\', '"']
  else if c = '\\' then ['\\', '\\']
  else if c = '\n' then ['\\', 'n']
  else if c = '\r' then ['\\', 'r']
  else if c = '\t' then ['\\', 't']
  else if c = '\x08' then ['\\', 'b']
  else if c = '\x0c' then ['\\', 'f']
  else if c.toNat < 0x20 then '\\' :: 'u' :: hex 4 c.toNat
  else if !ascii || c.toNat < 0x7F then [c]
  else if c.toNat < 0x10000 then '\\' :: 'u' :: hex 4 c.toNat
  else
    let n := c.toNat - 0x10000
    '\\' :: 'u' :: (hex 4 (0xD800 + n / 0x400) ++ '\\' :: 'u' :: hex 4 (0xDC00 + n % 0x400))

def string (ascii : Bool) (s : String) : String :=
  String.ofList ('"' :: s.toList.flatMap (escape ascii) ++ ['"'])

/-- A double; the special ones are words. -/
def float (x : Float) : String :=
  match Decimal.Binary.ofFloat x with
  | .nan => "NaN"
  | .infinite negative => if negative then "-Infinity" else "Infinity"
  | .finite .. => Decimal.shown x

def key : Value → Except Fault String
  | .text s => .ok s
  | .none => .ok "null"
  | .bool b => .ok (if b then "true" else "false")
  | .int n => .ok (Decimal.intText n)
  | .float x => .ok (float x)
  | v => .error (.keyKind v.kind)

mutual

def write (ascii : Bool) : Value → Except Fault String
  | .none => .ok "null"
  | .bool b => .ok (if b then "true" else "false")
  | .int n => .ok (Decimal.intText n)
  | .float x => .ok (float x)
  | .text s => .ok (string ascii s)
  | .list items => do return "[" ++ ", ".intercalate (← writeItems ascii items) ++ "]"
  | .tuple items => do return "[" ++ ", ".intercalate (← writeItems ascii items) ++ "]"
  | .record entries => do
    return "\x7b" ++ ", ".intercalate (← writeEntries ascii entries) ++ "\x7d"
  | .listRef _ | .recordRef _ | .loop _ => .error .circular

def writeItems (ascii : Bool) : List Value → Except Fault (List String)
  | [] => .ok []
  | x :: xs => do return (← write ascii x) :: (← writeItems ascii xs)

def writeEntries (ascii : Bool) : List (Value × Value) → Except Fault (List String)
  | [] => .ok []
  | (k, v) :: rest => do
    let name ← key k
    return (string ascii name ++ ": " ++ (← write ascii v)) :: (← writeEntries ascii rest)

end

end Birokrasi.Json
