import Birokrasi.Classic.Execution
import Birokrasi.Command.Usage
import Birokrasi.Command.World
import Birokrasi.Extended.Execution
import Birokrasi.Machine.Execution
import Birokrasi.Structured.Execution

/-!
# Running programs from files

The command lines of the three languages and of the machine (`run_file`, `run_bytecode_file`).
-/

namespace Birokrasi.Command

open Birokrasi.Text

/-! ## The classic and the extended language -/

/-- Runs a program from a file. `run` executes its text and says what has gone wrong. -/
def runSource (run : String → Act (Option String)) (path : String) : Act Ending := do
  let refuse := fun (line : String) => do
    print line
    return .left 1
  match (← get).files.readText path with
  | .error (.noSuchFile _) => refuse ("❌ File tidak ditemukan: " ++ path)
  | .error f => refuse ("\n❌ ERROR: " ++ f.message)
  | .ok code =>
    print ("🏗️  Menjalankan: " ++ path ++ "\n")
    print (rule 50)
    match ← run code with
    | some message => refuse ("\n❌ ERROR: " ++ message)
    | none =>
      print (rule 50)
      print "\n✅ Eksekusi selesai\n"
      return .returned none

def failureText {ε : Type} (message : ε → String) : Except ε Unit → Option String
  | .ok _ => none
  | .error e => some (message e)

def executeClassic (code : String) : Act (Option String) := do
  let (r, s) := (Classic.execute code).run.run { chance := (← get).chance }
  absorb s.printed s.waits
  modify fun w => { w with chance := s.chance }
  return failureText Classic.Failure.message r

def executeExtended (code : String) : Act (Option String) := do
  let w ← get
  let (r, s) := (Extended.execute code).run.run { chance := w.chance, files := w.files }
  absorb s.printed s.waits
  modify fun w => { w with chance := s.chance, files := s.files }
  return failureText Extended.Failure.message r

/-- The command line of a language that takes a file only. -/
def sourceCommand (usage : String) (run : String → Act (Option String)) :
    List String → Act Ending
  | [] => do
    print usage
    return .left 1
  | path :: _ => do
    if hasEnding path ".hl" then runSource run path
    else
      print "❌ File harus berekstensi .hl"
      return .left 1

def classic : List String → Act Ending :=
  sourceCommand "Usage: python hamba.py <file.hl>" executeClassic

def extended : List String → Act Ending :=
  sourceCommand "Usage: python hamba_v2.py <file.hl>" executeExtended

def showArguments (line : String) : Act Ending := do
  let start := (line.toList.takeWhile (· ≠ '(')).length + 1
  print ("Line: " ++ quoted line)
  print ("Start pos: " ++ toString start)
  print ("Substring from start: " ++ quoted (String.ofList (line.toList.drop start)))
  match Extended.callArguments? line.toList start with
  | some args => print ("Extracted args: " ++ quoted (String.ofList args))
  | none => print (Extended.Failure.unclosed line).message
  return .returned none

def argumentExample : Act Ending := showArguments "tambahArray(arr, \"C\")"

/-! ## The structured language -/

def structuredForm : Form where
  program := "hambalang"
  description := some "HambaLang Advanced Interpreter"
  file := "Path to .hl file"
  flags :=
    [⟨"seed", .int, "Deterministic seed"⟩, ⟨"step-limit", .int, "Execution step limit"⟩,
      ⟨"ctf", .nothing, "Enable CTF mode"⟩, ⟨"debug", .nothing, "Trace execution steps"⟩,
      ⟨"delay", .float, "Delay per step (seconds)"⟩]

def stopped (help : String) : Stop → Act Ending
  | .help => do
    write help
    return .left 0
  | .misuse => return .left 2

def runStructured (settings : Structured.Settings) (path : String) : Act Ending := do
  match (← get).files.readText path with
  | .error f => return .failed (.fault f)
  | .ok text =>
    match Structured.Program.ofLines (linesKept text) with
    | .error e => return .failed (.program e)
    | .ok program =>
      let (r, s) := (program.run Structured.depthLimit).run.run { settings }
      absorb s.printed s.waits
      match r with
      | .ok _ => return .returned none
      | .error e => return .failed (.program e)

def structured (args : List String) : Act Ending := do
  match structuredForm.read args with
  | .error stop => stopped structuredForm.help stop
  | .ok a =>
    runStructured
      { stepLimit := (a.int? "step-limit").getD 2000
        challenge := a.isOn "ctf"
        delay := .float ((a.float? "delay").getD 0.0)
        trace := a.isOn "debug" } a.file

/-! ## The machine -/

/-- How a machine runs a file. A machine without a seed takes zero. -/
structure RunSettings where
  traced : Bool := false
  seed : Option Int := none
  challenge : Bool := false
  stepLimit : Int := 100000
  delay : Float := 0.0

/-- Runs a compiled program from a file; says whether it has come to its end. -/
def runImage (settings : RunSettings) (path : String) : Act Bool := do
  match loadImage (← get).files path with
  | .error message =>
    print ("❌ ERROR: " ++ message)
    return false
  | .ok image =>
    print ("🚀 HambaVM v3.0 - Menjalankan " ++ path)
    if settings.challenge then print "🎯 CTF MODE: Selesaikan proyek dengan anggaran tepat 0!"
    print (rule 50)
    let m := Machine.start .plain image (settings.seed.getD 0) settings.stepLimit settings.traced
    let (ok, m) := m.run (.float settings.delay) settings.challenge
    absorb m.printed m.waits
    print (rule 50)
    print ("✓ Eksekusi selesai dalam " ++ toString m.steps ++ " langkah")
    print ("📊 Anggaran akhir: " ++ m.budget.shown)
    print ("📈 Progress: " ++ m.progress.shown ++ "%")
    print ("💰 Total korupsi: " ++ Decimal.intText m.embezzled)
    return ok

def argumentAfter? (name : String) : List String → Option String
  | [] => none
  | arg :: args => if arg = name then args.head? else argumentAfter? name args

def seedOf (args : List String) : Except Fault (Option Int) :=
  match argumentAfter? "--seed" args with
  | none => .ok none
  | some text =>
    match Decimal.readInt text.toList with
    | .ok n => .ok (some n)
    | .error (.tooLong n) => .error (.tooManyDigits n)
    | .error .malformed => .error (.notAnInt text)

def machine : List String → Act Ending
  | [] => do
    print "Usage: python hamba_vm.py <file.hbc> [--debug] [--seed N] [--ctf]"
    return .left 1
  | path :: args => do
    match seedOf (path :: args) with
    | .error f => return .failed (.fault f)
    | .ok seed =>
      let settings : RunSettings :=
        { traced := (path :: args).contains "--debug"
          challenge := (path :: args).contains "--ctf"
          seed }
      let _ ← runImage settings path
      return .returned none

end Birokrasi.Command
