import Birokrasi.Bytecode.File
import Birokrasi.Files
import Birokrasi.Random.Source
import Birokrasi.Structured.State

/-!
# Commands and their world

What commands see and change: a folder of files, what is typed, what is printed, and a source of
chance that they share.
-/

namespace Birokrasi.Command

open Birokrasi.Text

inductive Job where
  | structured (args : List String)

structure World where
  files : Files := []
  chance : Source
  /-- The number that a path is known by. -/
  pathNumber : Int := 0
  typed : List String := []
  printed : Array String := #[]
  waits : Array Value := #[]
  jobs : Array Job := #[]
  /-- The code that a job handed over comes back with. -/
  jobCode : Int := 7

inductive Failure where
  | fault (f : Fault)
  | program (e : Structured.Failure)

inductive Ending where
  /-- It comes back, with a code if it has one. -/
  | returned (code : Option Int)
  /-- It leaves at once. -/
  | left (code : Int)
  | failed (e : Failure)

abbrev Act := StateM World

def write (text : String) : Act Unit := modify fun w => { w with printed := w.printed.push text }

def print (line : String) : Act Unit := write (line ++ "\n")

/-- Adds what a program has printed and waited for. -/
def absorb (printed : Array String) (waits : Array Value) : Act Unit :=
  modify fun w => { w with printed := w.printed ++ printed, waits := w.waits ++ waits }

/-! ## Colours -/

inductive Colour where
  | header
  | info
  | success
  | warning
  | failure

def Colour.code : Colour → String
  | .header => "\x1b[95m"
  | .info => "\x1b[96m"
  | .success => "\x1b[92m"
  | .warning => "\x1b[93m"
  | .failure => "\x1b[91m"

def plainCode : String := "\x1b[0m"

def coloured (c : Colour) (text : String) : String := c.code ++ text ++ plainCode

def printHeader (text : String) : Act Unit := print (coloured .header ("\x1b[1m" ++ text))

def printSuccess (text : String) : Act Unit := print (coloured .success ("✓ " ++ text))

def printError (text : String) : Act Unit := print (coloured .failure ("✗ " ++ text))

def printInfo (text : String) : Act Unit := print (coloured .info ("ℹ " ++ text))

def printWarning (text : String) : Act Unit := print (coloured .warning text)

def rule (width : Nat) : String := String.ofList (List.replicate width '=')

/-! ## Files of compiled programs -/

def loadContent (files : Files) (path : String) : Except String Bytecode.Content :=
  match files.read path with
  | .error f => .error f.message
  | .ok bytes => (Bytecode.Content.load bytes).mapError (·.message)

def loadImage (files : Files) (path : String) : Except String Bytecode.Image :=
  (loadContent files path).map (·.image)

/-- Writes a draft to a file. If it cannot be written wholly, the file holds what could be written. -/
def saveDraft (path : String) (draft : Bytecode.Draft) : Act (Except String Unit) := do
  let w ← get
  let (outcome, bytes) := draft.write
  match w.files.write path bytes with
  | .error f => return .error f.message
  | .ok files =>
    set { w with files }
    return outcome.mapError (·.message)

def saveImage (path : String) (image : Bytecode.Image) : Act (Except String Unit) :=
  saveDraft path image.draft

/-- A path with one ending put for another, wherever it occurs. -/
def exchanged (old new path : String) : String :=
  String.ofList (replace old.toList new.toList path.toList)

def hasEnding (path ending : String) : Bool := endsWith path.toList ending.toList

def changedFiles (before after : Files) : Files :=
  after.filter fun e => before.get? e.1 != some e.2

end Birokrasi.Command
