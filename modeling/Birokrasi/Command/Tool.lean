import Birokrasi.Bytecode.Compiler
import Birokrasi.Bytecode.Listing
import Birokrasi.Command.Debugger
import Birokrasi.Command.Programs
import Birokrasi.Disguise.Relocation
import Birokrasi.Machine.Guarded

/-!
# The tool

One command line for running, compiling, listing, debugging, disguising and analysing programs
(`cmd_run`, `cmd_compile`, `cmd_disasm`, `cmd_debug`, `cmd_ctf`, `cmd_obfuscate`, `cmd_analyze`).
-/

namespace Birokrasi.Command

open Birokrasi.Text

/-! ## Compiling -/

def refuse (message : String) : Act Int := do
  printError message
  return 1

def compileFile (path : String) : Act Int := do
  match (← get).files.readText path with
  | .error f => refuse ("Gagal membaca file: " ++ f.message)
  | .ok source =>
    match Structured.Program.ofText source with
    | .error e => refuse ("Parse error: " ++ e.message)
    | .ok program =>
      let image := Bytecode.compile program
      let target := exchanged ".hl" ".hbc" path
      match ← saveImage target image with
      | .error message => refuse ("Failed to save bytecode: " ++ message)
      | .ok _ =>
        printSuccess ("Bytecode saved: " ++ target)
        printInfo ("Size: " ++ toString image.code.length ++ " bytes code, " ++
          toString image.constants.length ++ " constants, " ++ toString image.strings.length ++
          " strings")
        return 0

def ifPresent (path : String) (command : Act Int) : Act Int := do
  if (← get).files.present path then command
  else refuse ("File tidak ditemukan: " ++ path)

def ifEnding (path ending : String) (command : Act Int) : Act Int :=
  if hasEnding path ending then command else refuse ("File harus berekstensi " ++ ending)

def compileSource (a : Arguments) : Act Int :=
  ifPresent a.file <| ifEnding a.file ".hl" do
    printHeader "🔧 HambaLang Compiler"
    printInfo ("Compiling: " ++ a.file)
    compileFile a.file

/-! ## Running -/

/-- The ending of a file name: the last point and what follows it. A point at the front or at the end
of the name starts none. -/
def suffix (path : String) : String :=
  let names := (splitOn '/' path.toList).filter fun n => !n.isEmpty && n ≠ ['.']
  match names.getLast? with
  | none => ""
  | some name =>
    let ending := name.reverse.takeWhile (· ≠ '.')
    if ending.isEmpty || name.length ≤ ending.length + 1 then ""
    else String.ofList ('.' :: ending.reverse)

def codeOf (ok : Bool) : Int := if ok then 0 else 1

def runSettings (a : Arguments) (challenge : Bool) : RunSettings where
  traced := a.isOn "debug"
  seed := a.int? "seed"
  challenge
  stepLimit := (a.int? "step-limit").getD 100000
  delay := (a.float? "delay").getD 0.0

def runPlain (settings : RunSettings) (path : String) : Act Int := do
  printHeader "🚀 HambaVM - Bytecode Execution"
  return codeOf (← runImage settings path)

def runGuarded (a : Arguments) (settings : RunSettings) : Act Int := do
  printHeader "🔒 ObfuscatedVM - Protected Execution"
  match loadImage (← get).files a.file with
  | .error message => refuse ("Unexpected error: " ++ message)
  | .ok image =>
    let g := Machine.Guarded.start image (settings.seed.getD 0) settings.stepLimit settings.traced
      ((a.int? "paranoia").getD 0) (a.isOn "obfuscated")
    let (ok, g) := g.run (.float settings.delay) settings.challenge (a.isOn "hell")
    absorb g.core.printed g.core.waits
    return codeOf ok

/-- The command line that a source is handed over with. -/
def handOver (a : Arguments) (settings : RunSettings) : List String :=
  [a.file] ++ (if settings.traced then ["--debug"] else []) ++
    (match settings.seed with
      | some n => ["--seed", Decimal.intText n]
      | none => []) ++
    (if settings.challenge then ["--ctf"] else []) ++
    (if settings.delay > 0.0 then ["--delay", Decimal.shown settings.delay] else [])

def runFile (a : Arguments) (challenge : Bool) : Act Int :=
  ifPresent a.file do
    let settings := runSettings a challenge
    let ending := suffix a.file
    if ending = ".hbc" then
      if a.isOn "strict" then printInfo "Formal Verification: Strict Mode Enabled"
      if a.isOn "audit" then printInfo "Runtime Audit: Integrity Checks Enabled"
      if a.isOn "obfuscated" || 0 < (a.int? "paranoia").getD 0 || a.isOn "hell" then
        runGuarded a settings
      else runPlain settings a.file
    else if ending = ".hl" then
      if a.isOn "vm" then
        printInfo "Compiling to bytecode..."
        if (← compileFile a.file) ≠ 0 then return 1
        runPlain settings (exchanged ".hl" ".hbc" a.file)
      else
        printHeader "🎭 HambaLang Interpreter"
        modify fun w => { w with jobs := w.jobs.push (.structured (handOver a settings)) }
        return (← get).jobCode
    else
      printError ("Format file tidak didukung: " ++ ending)
      printInfo "Gunakan .hl (source) atau .hbc (bytecode)"
      return 1

def runProgram (a : Arguments) : Act Int := runFile a (a.isOn "ctf")

def takeChallenge (a : Arguments) : Act Int :=
  ifPresent a.file do
    printHeader "🎯 HambaLang CTF Challenge"
    printWarning "GOAL: Selesaikan proyek dengan anggaran tepat 0"
    printWarning "HINT: Gunakan --seed untuk deterministic execution"
    print (rule 60)
    if (a.int? "seed").isNone then printInfo "Tip: Coba --seed 42 atau --seed 1337"
    runFile a true

/-! ## Looking into programs -/

def listImage (a : Arguments) : Act Int :=
  ifPresent a.file <| ifEnding a.file ".hbc" do
    printHeader "🔍 HambaLang Disassembler"
    match loadImage (← get).files a.file with
    | .error message => refuse ("Disassembly error: " ++ message)
    | .ok image =>
      print image.listing
      return 0

def openDebugger (path : String) (seed : Int) : Act (Except Int Machine) := do
  printHeader "🐛 HambaLang Debugger"
  printInfo "Commands: step, run, stack, vars, state, quit"
  match loadImage (← get).files path with
  | .error message => return .error (← debuggerFailure message)
  | .ok image => return .ok (Machine.start .plain image seed 100000 true)

/-- Compiles what is to be debugged, if it is a source, and opens the debugger. -/
def startDebugger (a : Arguments) : Act (Except Int Machine) := do
  let seed := (a.int? "seed").getD 0
  if !(← get).files.present a.file then
    return .error (← refuse ("File tidak ditemukan: " ++ a.file))
  else if hasEnding a.file ".hl" then
    printInfo "Compiling for debug..."
    if (← compileFile a.file) ≠ 0 then return .error 1
    else openDebugger (exchanged ".hl" ".hbc" a.file) seed
  else openDebugger a.file seed

def debugProgram (a : Arguments) : Act Int := do
  match ← startDebugger a with
  | .error code => return code
  | .ok m => session (← get).typed m

def findings : List String :=
  ["⚠️  Potential obfuscation detected at offset 0x42", "✓  No self-modifying code found",
    "⚠️  Suspicious jump pattern detected", "✓  Stack operations appear normal",
    "⚠️  Possible anti-debug trap at offset 0x1A7", "✓  No polymorphic behavior detected",
    "⚠️  Abnormal constant distribution", "✓  Control flow appears linear"]

def advice : List String :=
  ["- Execute with --debug for detailed trace", "- Try different random seeds for analysis",
    "- Check offset 0x42 for hidden logic", "- Analyze constants for encoded data"]

/-- The findings and the advice of an analysis, drawn by the number of the path. -/
def drawAnalysis (pathNumber : Int) : Except Fault (List String × List String) := do
  let (found, g) ← (Twister.ofSeed pathNumber).sample findings 5
  let (advised, _) ← g.sample advice 3
  return (found, advised)

def analyzeImage (a : Arguments) : Act Int :=
  ifPresent a.file <| ifEnding a.file ".hbc" do
    printHeader "🔍 HambaLang Static Analyzer (Experimental)"
    printWarning "WARNING: Analysis may be incomplete or inaccurate"
    match loadImage (← get).files a.file with
    | .error message => refuse ("Analysis error: " ++ message)
    | .ok image =>
      print ("\n📊 File: " ++ a.file)
      print ("Size: " ++ toString image.code.length ++ " bytes")
      print ("Constants: " ++ toString image.constants.length)
      print ("Strings: " ++ toString image.strings.length)
      print "\n🔎 Security Analysis:"
      match drawAnalysis (← get).pathNumber with
      | .error f => refuse ("Analysis error: " ++ f.message)
      | .ok (found, advised) =>
        found.forM fun line => print ("  " ++ line)
        print "\n🎯 Recommended Actions:"
        advised.forM fun line => print ("  " ++ line)
        print ("\n" ++ coloured .warning "Note: This is an experimental tool.")
        printWarning "Results may not reflect actual bytecode behavior."
        return 0

/-! ## Disguising -/

/-- The seed of a disguise: the one that is given, or else one by the number of the path. -/
def disguiseSeed (given : Option Int) (pathNumber : Int) : Int :=
  match given with
  | some n => if n = 0 then Int.emod pathNumber 1000000 else n
  | none => Int.emod pathNumber 1000000

def disguiseTarget (a : Arguments) : String :=
  match a.text? "output" with
  | some path => if path.isEmpty then exchanged ".hbc" "_obf.hbc" a.file else path
  | none => exchanged ".hbc" "_obf.hbc" a.file

def disguiseImage (a : Arguments) : Act Int :=
  ifPresent a.file <| ifEnding a.file ".hbc" do
    let level := (a.int? "level").getD 1
    printHeader "🔒 HambaLang Obfuscator"
    printInfo ("Obfuscating: " ++ a.file ++ " (level " ++ Decimal.intText level ++ ")")
    match loadContent (← get).files a.file with
    | .error message => refuse ("Obfuscation error: " ++ message)
    | .ok content =>
      let seed := disguiseSeed (a.int? "seed") (← get).pathNumber
      match Disguise.disguise content.code seed level with
      | .error f => refuse ("Obfuscation error: " ++ f.message)
      | .ok code =>
        let target := disguiseTarget a
        match ← saveDraft target { content with code }.draft with
        | .error message => refuse ("Obfuscation error: " ++ message)
        | .ok _ =>
          printSuccess ("Obfuscated bytecode saved: " ++ target)
          printInfo ("Obfuscation seed: " ++ Decimal.intText seed)
          printInfo ("Level: " ++ Decimal.intText level ++
            " (1=remap, 2=remap+junk, 3=remap+junk+reorder)")
          return 0

/-! ## The command line -/

inductive Task where
  | run
  | compile
  | disasm
  | debug
  | ctf
  | obfuscate
  | analyze
  deriving DecidableEq

namespace Task

def all : List Task := [.run, .compile, .disasm, .debug, .ctf, .obfuscate, .analyze]

def name : Task → String
  | .run => "run"
  | .compile => "compile"
  | .disasm => "disasm"
  | .debug => "debug"
  | .ctf => "ctf"
  | .obfuscate => "obfuscate"
  | .analyze => "analyze"

def summary : Task → String
  | .run => "Run source or bytecode"
  | .compile => "Compile .hl to .hbc"
  | .disasm => "Disassemble bytecode"
  | .debug => "Interactive debugger"
  | .ctf => "Run in CTF challenge mode"
  | .obfuscate => "Obfuscate bytecode (.hbc)"
  | .analyze => "Perform academic static analysis"

def form (c : Task) : Form :=
  let program := "hambalang " ++ c.name
  let seed : Flag := ⟨"seed", .int, "Random seed"⟩
  let stepLimit : Flag := ⟨"step-limit", .int, "Max execution steps"⟩
  match c with
  | .run =>
    { program
      file := "File to run (.hl or .hbc)"
      flags :=
        [⟨"vm", .nothing, "Use VM (compile first if .hl)"⟩,
          ⟨"debug", .nothing, "Enable debug trace"⟩, seed, ⟨"ctf", .nothing, "CTF mode"⟩,
          stepLimit, ⟨"delay", .float, "Delay between steps (seconds)"⟩,
          ⟨"strict", .nothing, "Enable strict academic verification"⟩,
          ⟨"audit", .nothing, "Enable runtime integrity audit"⟩,
          ⟨"obfuscated", .nothing, "Run as obfuscated bytecode"⟩,
          ⟨"paranoia", .int, "Anti-debug paranoia level (0-2)"⟩,
          ⟨"hell", .nothing, "Enable Hell Mode CTF"⟩] }
  | .compile => { program, file := "Source file (.hl)" }
  | .disasm => { program, file := "Bytecode file (.hbc)" }
  | .debug => { program, file := "File to debug (.hl or .hbc)", flags := [seed] }
  | .ctf =>
    { program
      file := "Challenge file"
      flags := [seed, ⟨"vm", .nothing, "Use VM"⟩, stepLimit, ⟨"delay", .float, "Delay between steps"⟩] }
  | .obfuscate =>
    { program
      file := "Bytecode file (.hbc)"
      flags :=
        [⟨"level", .oneOf [1, 2, 3], "Obfuscation level (1=remap, 2=junk, 3=reorder)"⟩, seed,
          ⟨"output", .text, "Output file path"⟩] }
  | .analyze =>
    { program
      file := "File to analyze"
      flags := [⟨"deep", .nothing, "Enable deep heuristic analysis"⟩] }

def perform : Task → Arguments → Act Int
  | .run => runProgram
  | .compile => compileSource
  | .disasm => listImage
  | .debug => debugProgram
  | .ctf => takeChallenge
  | .obfuscate => disguiseImage
  | .analyze => analyzeImage

end Task

def toolHelp : String :=
  let names := "\x7b" ++ ",".intercalate (Task.all.map (·.name)) ++ "\x7d"
  let column := nameWidth
  usageLines "hambalang" ["[-h]"] [names, "..."] ++
    "\n\nHambaLang - Esoteric bureaucratic programming language\n\npositional arguments:\n" ++
    entryLine column 2 names "Commands" ++ "\n" ++
    String.join (Task.all.map fun c => entryLine column 4 c.name c.summary ++ "\n") ++
    "\noptions:\n" ++ entryLine column 2 helpEntry.1 helpEntry.2 ++
    "\n\nExamples:
  hambalang run demo.hl                  # Run with interpreter
  hambalang run demo.hl --vm             # Compile & run on VM
  hambalang compile demo.hl              # Compile to bytecode
  hambalang run demo.hbc                 # Run bytecode
  hambalang disasm demo.hbc              # Disassemble bytecode
  hambalang debug demo.hl                # Interactive debugger
  hambalang ctf challenge.hl --seed 42   # CTF mode
        \n"

inductive Wish where
  | nothing
  | perform (c : Task) (a : Arguments)
  | stop (help : String) (s : Stop)

/-- What a command line asks for. A flag that the tool does not have is a mistake, but help and
mistakes of the command come first. -/
def wish (excess : Bool) : List String → Wish
  | [] => if excess then .stop toolHelp .misuse else .nothing
  | arg :: args =>
    match token [] arg with
    | .ok (.word name) =>
      match Task.all.find? (·.name = name) with
      | none => .stop toolHelp .misuse
      | some c =>
        match c.form.read args with
        | .error s => .stop c.form.help s
        | .ok a => if excess then .stop toolHelp .misuse else .perform c a
    | .ok (.help attached) => .stop toolHelp attached.onHelp
    | .ok .unknown => wish true args
    | _ => .stop toolHelp .misuse

def tool (args : List String) : Act Ending := do
  match wish false args with
  | .nothing =>
    write toolHelp
    return .returned (some 1)
  | .stop help s => stopped help s
  | .perform c a => return .returned (some (← c.perform a))

end Birokrasi.Command
