import Birokrasi.Text.Class

/-!
# Quoted texts

A text as it is shown inside a container: between quotes, with the escapes that make it readable.
-/

namespace Birokrasi.Text

def hexDigit (d : Nat) : Char :=
  if d < 10 then Char.ofNat (48 + d) else Char.ofNat (87 + d)

def hex : (width n : Nat) → List Char
  | 0, _ => []
  | width + 1, n => hex width (n / 16) ++ [hexDigit (n % 16)]

def hexText (bytes : List UInt8) : String := String.ofList (bytes.flatMap fun b => hex 2 b.toNat)

def upperAscii (s : List Char) : List Char := s.map Char.toUpper

/-- One character between the quotes `q`. Characters without a glyph are written by their number,
in the shortest of the forms with two, four and eight digits. -/
def escape (q c : Char) : List Char :=
  if c = q || c = '\\' then ['\\', c]
  else if c = '\n' then ['\\', 'n']
  else if c = '\r' then ['\\', 'r']
  else if c = '\t' then ['\\', 't']
  else if isVisible c then [c]
  else if c.toNat < 0x100 then '\\' :: 'x' :: hex 2 c.toNat
  else if c.toNat < 0x10000 then '\\' :: 'u' :: hex 4 c.toNat
  else '\\' :: 'U' :: hex 8 c.toNat

/-- Single quotes are used, unless the text has some and no double quotes. -/
def quoteFor (s : List Char) : Char :=
  if s.contains '\'' && !s.contains '"' then '"' else '\''

def quoted (text : String) : String :=
  let s := text.toList
  let q := quoteFor s
  String.ofList (q :: s.flatMap (escape q) ++ [q])

end Birokrasi.Text
