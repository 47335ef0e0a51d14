import Birokrasi.Bytecode.Image

/-!
# Files of compiled programs

How an image is written to a file and read back, as in `Bytecode.save` and `Bytecode.load`. All numbers
are written with the lowest byte first. Writing says what has been written when it fails; reading says
what is missing. What a file holds (`Content`) is a little more than an image knows: the bits of a double
that is no number. What is handed over to be written (`Draft`) may not fit into a file.
-/

namespace Birokrasi.Bytecode

open Birokrasi.Text

def magic : Bytes := [0x48, 0x42, 0x43, 0x00]

def fileVersion : Nat := 3

/-! ## Contents -/

/-- A constant of a file. A double is held by its bits, which survive where its value would not. -/
inductive Constant where
  | none
  | int (n : Int)
  | float (bits : UInt64)
  | text (s : String)
  deriving DecidableEq

def Constant.value : Constant → Value
  | .none => .none
  | .int n => .int n
  | .float bits => .float (Float.ofBits bits)
  | .text s => .text s

structure Content where
  code : Bytes := []
  constants : List Constant := []
  strings : List String := []
  version : Int := 0
  deriving DecidableEq

def Content.image (c : Content) : Image where
  code := c.code
  constants := c.constants.map Constant.value
  strings := c.strings
  version := c.version

/-! ## Drafts -/

/-- A constant that is to be written. It may be more than a file can hold: an integer of any size, or a
text without bytes. -/
inductive DraftConstant where
  | none
  | bool (b : Bool)
  | int (n : Int)
  | float (bits : UInt64)
  | text (t : LooseText)

namespace DraftConstant

/-- The constant that a value is written as. A value that is no number and no text is written as
nothing. -/
def ofValue : Value → DraftConstant
  | .bool b => .bool b
  | .int n => .int n
  | .float x => .float x.toBits
  | .text s => .text (.ofString s)
  | _ => .none

def ofConstant : Constant → DraftConstant
  | .none => .none
  | .int n => .int n
  | .float bits => .float bits
  | .text s => .text (.ofString s)

end DraftConstant

structure Draft where
  code : Bytes := []
  constants : List DraftConstant := []
  strings : List LooseText := []

/-- What is written of an image. The slots of the variables get lost. -/
def Image.draft (i : Image) : Draft where
  code := i.code
  constants := i.constants.map .ofValue
  strings := i.strings.map .ofString

def Content.draft (c : Content) : Draft where
  code := c.code
  constants := c.constants.map .ofConstant
  strings := c.strings.map .ofString

/-! ## Writing -/

inductive WriteError where
  /-- A count or length over sixteen bits. -/
  | shortRange
  /-- A length over thirty-two bits. -/
  | wordRange
  /-- A constant over sixty-four bits. -/
  | longRange
  | notEncodable (error : SurrogateError)

def WriteError.message : WriteError → String
  | .shortRange => "ushort format requires 0 <= number <= 65535"
  | .wordRange => "'I' format requires 0 <= number <= 4294967295"
  | .longRange => "argument out of range"
  | .notEncodable e => e.message

/-- An action that writes bytes, which stay written when it fails. -/
abbrev Writer := ExceptT WriteError (StateM (List Bytes))

namespace Writer

def bytes (bs : Bytes) : Writer Unit := modify (bs :: ·)

def short (n : Nat) : Writer Unit :=
  if n < 0x10000 then bytes (littleEndian 2 n) else throw .shortRange

def word (n : Nat) : Writer Unit :=
  if n < 0x100000000 then bytes (littleEndian 4 n) else throw .wordRange

def long (n : Int) : Writer Unit :=
  if -0x8000000000000000 ≤ n ∧ n < 0x8000000000000000 then
    bytes (littleEndian 8 (n % 0x10000000000000000).toNat)
  else throw .longRange

def text (t : LooseText) : Writer Unit :=
  match encodeLoose t with
  | .ok encoded => do
    short encoded.length
    bytes encoded
  | .error e => throw (.notEncodable e)

def tag (c : Char) : Bytes := [c.toNat.toUInt8]

/-- Writes a constant. The truth values are written as integers. -/
def constant : DraftConstant → Writer Unit
  | .none => bytes (tag 'N')
  | .bool b => do
    bytes (tag 'I')
    long (if b then 1 else 0)
  | .int n => do
    bytes (tag 'I')
    long n
  | .float bits => do
    bytes (tag 'F')
    bytes (littleEndian 8 bits.toNat)
  | .text t => do
    bytes (tag 'S')
    text t

def draft (d : Draft) : Writer Unit := do
  bytes magic
  short fileVersion
  word d.code.length
  bytes d.code
  short d.constants.length
  d.constants.forM constant
  short d.strings.length
  d.strings.forM text

end Writer

/-- What writing a draft comes to, with the bytes that are in the file afterwards. -/
def Draft.write (d : Draft) : Except WriteError Unit × Bytes :=
  let (r, parts) := (Writer.draft d).run.run []
  (r, parts.reverse.flatten)

def Draft.save (d : Draft) : Except WriteError Bytes :=
  match d.write with
  | (.ok _, bytes) => .ok bytes
  | (.error e, _) => .error e

def Content.save (c : Content) : Except WriteError Bytes := c.draft.save

def Image.save (i : Image) : Except WriteError Bytes := i.draft.save

/-! ## Reading -/

inductive ReadError where
  | badMagic
  | cutOff (size : Nat)
  | notText (error : Utf8Error)

def ReadError.message : ReadError → String
  | .badMagic => "Invalid bytecode file"
  | .cutOff size => "unpack requires a buffer of " ++ toString size ++ " bytes"
  | .notText e => e.message

/-- An action that reads from the front of the bytes that are left. -/
abbrev Reader := StateT Bytes (Except ReadError)

namespace Reader

/-- Reads bytes, fewer if there are no more. -/
def bytes (count : Nat) : Reader Bytes := do
  let rest ← get
  set (rest.drop count)
  return rest.take count

def number (size : Nat) : Reader Nat := do
  let bs ← bytes size
  if bs.length = size then return ofLittleEndian bs else throw (.cutOff size)

def text : Reader String := do
  let size ← number 2
  match decodeUtf8 (← bytes size) with
  | .ok s => return s
  | .error e => throw (.notText e)

def signed (n : Nat) : Int :=
  if n < 0x8000000000000000 then n else (n : Int) - 0x10000000000000000

/-- Reads a constant. A letter of no kind stands for nothing. -/
def constant : Reader Constant := do
  let first ← bytes 1
  if first = Writer.tag 'I' then return .int (signed (← number 8))
  else if first = Writer.tag 'F' then return .float (← number 8).toUInt64
  else if first = Writer.tag 'S' then return .text (← text)
  else return .none

/-- Reads `count` things; those already read are in `done`, the latest first. -/
def many {α : Type} (one : Reader α) : (count : Nat) → (done : List α) → Reader (List α)
  | 0, done => return done.reverse
  | count + 1, done => do many one count ((← one) :: done)

/-- Reads the content of a file. What follows it is ignored. -/
def content : Reader Content := do
  if (← bytes 4) ≠ magic then throw .badMagic
  let version ← number 2
  let code ← bytes (← number 4)
  let constants ← many constant (← number 2) []
  let strings ← many text (← number 2) []
  return { code, constants, strings, version }

end Reader

def Content.load (file : Bytes) : Except ReadError Content := Reader.content.run' file

def Image.load (file : Bytes) : Except ReadError Image := (Content.load file).map Content.image

end Birokrasi.Bytecode
