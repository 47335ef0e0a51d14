import Birokrasi.Text.Quoted

/-!
# UTF-8

Texts as bytes and back. Reading is strict: it refuses overlong forms, surrogates and cut-off
characters, and says where and why. A text that is handed over to be written may hold surrogates, and is
refused then.
-/

namespace Birokrasi.Text

abbrev Bytes := List UInt8

inductive Utf8Reason where
  | badStart
  | badContinuation
  | cutOff

structure Utf8Error where
  first : UInt8
  start : Nat
  size : Nat
  reason : Utf8Reason

def Utf8Reason.text : Utf8Reason → String
  | .badStart => "invalid start byte"
  | .badContinuation => "invalid continuation byte"
  | .cutOff => "unexpected end of data"

/-- The wording of an error: one byte is named, several are given by their positions. -/
def Utf8Error.message (e : Utf8Error) : String :=
  "'utf-8' codec can't decode " ++
    (if e.size = 1 then
      "byte 0x" ++ String.ofList (hex 2 e.first.toNat) ++ " in position " ++ toString e.start
    else
      "bytes in position " ++ toString e.start ++ "-" ++ toString (e.start + e.size - 1)) ++
    ": " ++ e.reason.text

def encodeChar (c : Char) : Bytes :=
  let n := c.toNat
  if n < 0x80 then [n.toUInt8]
  else if n < 0x800 then [(0xC0 + n / 0x40).toUInt8, (0x80 + n % 0x40).toUInt8]
  else if n < 0x10000 then
    [(0xE0 + n / 0x1000).toUInt8, (0x80 + n / 0x40 % 0x40).toUInt8, (0x80 + n % 0x40).toUInt8]
  else
    [(0xF0 + n / 0x40000).toUInt8, (0x80 + n / 0x1000 % 0x40).toUInt8,
      (0x80 + n / 0x40 % 0x40).toUInt8, (0x80 + n % 0x40).toUInt8]

def encodeUtf8 (s : String) : Bytes := s.toList.flatMap encodeChar

/-- Where a character stands after its first byte: how many bytes it still lacks, between which
bounds the next one lies, and the number read so far. -/
structure Utf8Open where
  missing : Nat
  low : Nat
  high : Nat
  value : Nat

def Utf8Open.ofFirst (b : Nat) : Option Utf8Open :=
  if b < 0x80 then some ⟨0, 0, 0, b⟩
  else if 0xC2 ≤ b && b ≤ 0xDF then some ⟨1, 0x80, 0xBF, b - 0xC0⟩
  else if b = 0xE0 then some ⟨2, 0xA0, 0xBF, 0⟩
  else if b = 0xED then some ⟨2, 0x80, 0x9F, 0xD⟩
  else if 0xE1 ≤ b && b ≤ 0xEF then some ⟨2, 0x80, 0xBF, b - 0xE0⟩
  else if b = 0xF0 then some ⟨3, 0x90, 0xBF, 0⟩
  else if b = 0xF4 then some ⟨3, 0x80, 0x8F, 4⟩
  else if 0xF1 ≤ b && b ≤ 0xF3 then some ⟨3, 0x80, 0xBF, b - 0xF0⟩
  else none

/-- The state of strict reading: the characters read, latest first, the bytes read, and the
character that is open with its first byte and the number of its bytes so far. -/
structure Utf8Reader where
  chars : List Char := []
  position : Nat := 0
  current : Option (UInt8 × Nat × Utf8Open) := none

def Utf8Reader.feed (r : Utf8Reader) (b : UInt8) : Except Utf8Error Utf8Reader :=
  match r.current with
  | none =>
    match Utf8Open.ofFirst b.toNat with
    | none => .error ⟨b, r.position, 1, .badStart⟩
    | some o =>
      if o.missing = 0 then .ok ⟨Char.ofNat o.value :: r.chars, r.position + 1, none⟩
      else .ok ⟨r.chars, r.position + 1, some (b, 1, o)⟩
  | some (first, count, o) =>
    if o.low ≤ b.toNat && b.toNat ≤ o.high then
      let value := o.value * 0x40 + (b.toNat - 0x80)
      if o.missing ≤ 1 then .ok ⟨Char.ofNat value :: r.chars, r.position + 1, none⟩
      else .ok ⟨r.chars, r.position + 1, some (first, count + 1, ⟨o.missing - 1, 0x80, 0xBF, value⟩)⟩
    else .error ⟨first, r.position - count, count, .badContinuation⟩

def decodeUtf8 (bytes : Bytes) : Except Utf8Error String := do
  let r ← bytes.foldlM Utf8Reader.feed {}
  match r.current with
  | none => return String.ofList r.chars.reverse
  | some (first, count, _) => throw ⟨first, r.position - count, count, .cutOff⟩

/-! ## Texts that may have no bytes -/

/-- A code point: a character, or a surrogate, which no bytes stand for. -/
inductive CodePoint where
  | char (c : Char)
  | surrogate (n : Fin 0x800)

namespace CodePoint

def isSurrogate : CodePoint → Bool
  | .char _ => false
  | .surrogate _ => true

def bytes : CodePoint → Bytes
  | .char c => encodeChar c
  | .surrogate _ => []

end CodePoint

abbrev LooseText := List CodePoint

def LooseText.ofString (s : String) : LooseText := s.toList.map .char

/-- Surrogates keep a text from being written: `size` of them in a row, from `start` on. -/
structure SurrogateError where
  first : Fin 0x800
  start : Nat
  size : Nat

def SurrogateError.message (e : SurrogateError) : String :=
  "'utf-8' codec can't encode " ++
    (if e.size = 1 then
      "character '\\u" ++ String.ofList (hex 4 (0xD800 + e.first.val)) ++ "' in position " ++
        toString e.start
    else
      "characters in position " ++ toString e.start ++ "-" ++ toString (e.start + e.size - 1)) ++
    ": surrogates not allowed"

/-- The first surrogates of a text, of which `position` code points have been looked at. -/
def surrogates? (position : Nat) : LooseText → Option SurrogateError
  | [] => none
  | .char _ :: rest => surrogates? (position + 1) rest
  | .surrogate n :: rest =>
    some ⟨n, position, 1 + (rest.takeWhile CodePoint.isSurrogate).length⟩

def encodeLoose (t : LooseText) : Except SurrogateError Bytes :=
  match surrogates? 0 t with
  | some e => .error e
  | none => .ok (t.flatMap CodePoint.bytes)

/-! ## Files -/

def unifyNewlines (s : List Char) : List Char :=
  let step := fun (state : List Char × Bool) (c : Char) =>
    if c = '\r' then ('\n' :: state.1, true)
    else if c = '\n' && state.2 then (state.1, false)
    else (c :: state.1, false)
  (s.foldl step ([], false)).1.reverse

/-- The text of a file: strict UTF-8 with unified line ends. -/
def textOfFile (bytes : Bytes) : Except Utf8Error String := do
  return String.ofList (unifyNewlines (← decodeUtf8 bytes).toList)

end Birokrasi.Text
