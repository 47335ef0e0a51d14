import Birokrasi.Random.Source
import Birokrasi.Table
import Birokrasi.Value.Convert

/-!
# The classic language: state

A project with a budget, a status and a progress, and what has been said about it: `HambaRuntime` of the
first version.
-/

namespace Birokrasi.Classic

structure Function where
  params : List String
  body : List String

inductive Failure where
  | fault (f : Fault)
  | unknownStatement (line : String)
  | percentRange
  | conditionalForm
  | badCondition (text : String)
  | badBudget (text : String)
  | badProgress (text : String)
  | unknownVariable (name : String)
  | unboundName (name : String)
  | unknownFunction (name : String)
  | argumentCount (name : String) (wanted given : Nat)
  | atLine (line : Nat) (message : String)

def Failure.message : Failure → String
  | .fault f => f.message
  | .unknownStatement line => "Syntax tidak dikenali: " ++ line
  | .percentRange => "Persentase korupsi harus 0-100"
  | .conditionalForm => "Format: jika <kondisi> maka <aksi>"
  | .badCondition text => "Kondisi tidak valid: " ++ text
  | .badBudget text => "Nilai anggaran tidak valid: " ++ text
  | .badProgress text => "Nilai progress tidak valid: " ++ text
  | .unknownVariable name => "Variable tidak dikenal: " ++ name
  | .unboundName name => "Variable tidak ditemukan: " ++ name
  | .unknownFunction name => "Function tidak ditemukan: " ++ name
  | .argumentCount name wanted given =>
    "Function " ++ name ++ " membutuhkan " ++ toString wanted ++ " parameter, diberikan " ++
      toString given
  | .atLine line message =>
    "Error Birokrasi pada baris " ++ toString line ++ ": " ++ message

structure State where
  budget : Value := .int 1000000000
  status : String := "Direncanakan"
  progress : Int := 0
  «variables» : Table String Value := []
  functions : Table String Function := []
  reports : List String := []
  finished : Bool := false
  chance : Source
  printed : Array String := #[]
  waits : Array Value := #[]

/-- An action on the state, which keeps the changes made before a failure. -/
abbrev Run := ExceptT Failure (StateM State)

def ofFault {α : Type} (r : Except Fault α) : Run α :=
  match r with
  | .ok a => pure a
  | .error f => throw (.fault f)

def report (text : String) : Run Unit :=
  modify fun s => { s with reports := text :: s.reports, printed := s.printed.push (text ++ "\n") }

def State.output (s : State) : String := "\n".intercalate s.reports.reverse

def wait (time : Value) : Run Unit := do
  ofFault time.waitable
  modify fun s => { s with waits := s.waits.push time }

def draw {α : Type} (f : Source → α × Source) : Run α := do
  let s ← get
  let (a, chance) := f s.chance
  set { s with chance }
  return a

/-- The value of a name; the figures of the project go before the variables. -/
def State.lookup (s : State) (name : String) : Except Failure Value :=
  if name = "anggaran" then .ok s.budget
  else if name = "status_proyek" then .ok (.text s.status)
  else if name = "progress" then .ok (.int s.progress)
  else
    match s.variables.get? name with
    | some v => .ok v
    | none => .error (.unboundName name)

/-- Calls a function. The number of arguments is checked; no function gives a value back, and the
variables stay as they are. -/
def State.call (s : State) (name : String) (args : List Value) : Except Failure Value :=
  match s.functions.get? name with
  | none => .error (.unknownFunction name)
  | some f =>
    if args.length = f.params.length then .ok .none
    else .error (.argumentCount name f.params.length args.length)

end Birokrasi.Classic
