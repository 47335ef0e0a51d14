import Birokrasi.Bytecode.Image

/-!
# Listings

An image as `disassemble` shows it: its sizes, its constants and texts, and its instructions with their
addresses.
-/

namespace Birokrasi.Bytecode

open Birokrasi.Text (Bytes)

/-- The operand as a listing shows it. The push of a text shows the text, if there is one. -/
def operandText (strings : List String) (op : Opcode) (operand : Nat) : String :=
  if op = .push && 0x8000 ≤ operand then
    let id := operand - 0x8000
    " @" ++ toString id ++
      (match strings[id]? with
      | some s => " \"" ++ s ++ "\""
      | none => "")
  else " #" ++ toString operand

/-- The lines of the instructions in `code`, the first of which is at address `address`. An operand
that is cut off is not shown, and its bytes are listed as operations. -/
def listingFrom (strings : List String) (address : Nat) : (code : Bytes) → List String
  | [] => []
  | b :: low :: high :: rest =>
    let line := Decimal.padded 4 address ++ "  " ++ byteName b
    match (Opcode.ofByte? b).filter carriesOperand with
    | some op =>
      (line ++ operandText strings op (low.toNat + 256 * high.toNat)) ::
        listingFrom strings (address + 3) rest
    | none => line :: listingFrom strings (address + 1) (low :: high :: rest)
  | b :: rest =>
    (Decimal.padded 4 address ++ "  " ++ byteName b) :: listingFrom strings (address + 1) rest

def Image.listing (image : Image) : String :=
  "\n".intercalate <|
    ["=== HAMBALANG BYTECODE ===",
      "Version: " ++ Decimal.intText image.version,
      "Code size: " ++ toString image.code.length ++ " bytes",
      "Constants: " ++ toString image.constants.length,
      "Strings: " ++ toString image.strings.length,
      "\n=== CONSTANTS ==="] ++
    image.constants.zipIdx.map (fun e => "  #" ++ toString e.2 ++ ": " ++ e.1.shown) ++
    ["\n=== STRINGS ==="] ++
    image.strings.zipIdx.map (fun e => "  @" ++ toString e.2 ++ ": \"" ++ e.1 ++ "\"") ++
    ["\n=== DISASSEMBLY ==="] ++
    listingFrom image.strings 0 image.code

end Birokrasi.Bytecode
