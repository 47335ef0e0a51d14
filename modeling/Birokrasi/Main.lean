import Birokrasi.Command.Tool

/-!
# The command line

The outer layer of the tool. It reads the files that the arguments name, performs the command on
them, prints what it printed, and writes the files that it changed. A debugger session is held line
by line.
-/

open Birokrasi Birokrasi.Command

/-- The files that arguments name, or name by their compiled form. -/
def namedFiles (args : List String) : IO Files := do
  let paths := (args ++ args.map (exchanged ".hl" ".hbc")).eraseDups
  let mut files : Files := []
  for path in paths do
    try
      let bytes ← IO.FS.readBinFile path
      files := (files.write path bytes.toList).toOption.getD files
    catch _ => pure ()
  return files

def performed {α : Type} (act : Act α) (w : World) : IO (α × World) := do
  let (a, after) := act.run { w with printed := #[], waits := #[], jobs := #[] }
  let output ← IO.getStdout
  after.printed.forM output.putStr
  output.flush
  for (path, bytes) in changedFiles w.files after.files do
    IO.FS.writeBinFile path ⟨bytes.toArray⟩
  return (a, after)

def exitCode : Ending → IO Int
  | .returned code => return code.getD 0
  | .left code => return code
  | .failed (.fault f) => do
    IO.eprintln f.message
    return 1
  | .failed (.program e) => do
    IO.eprintln e.message
    return 1

partial def converse (m : Machine) (w : World) : IO Int := do
  let (_, w) ← performed (write promptText) w
  let line ← (← IO.getStdin).getLine
  if line.isEmpty then return (← performed (debuggerFailure Fault.endOfInput.message) w).1
  let (reply, w) ← performed (answer line m) w
  match reply with
  | .quit => return 0
  | .failed message => return (← performed (debuggerFailure message) w).1
  | .next m => converse m w

/-- Performs a command line, and the work that it hands over. -/
def perform (args : List String) : IO Int := do
  let seed ← IO.rand 0 0x80000000
  let w : World := { files := ← namedFiles args, chance := .drawn (Twister.ofSeed seed) }
  match wish false args with
  | .perform .debug a =>
    let (opened, w) ← performed (startDebugger a) w
    match opened with
    | .error code => return code
    | .ok m => converse m w
  | _ =>
    let (ending, after) ← performed (tool args) w
    match after.jobs.toList with
    | .structured given :: _ => exitCode (← performed (structured given) after).1
    | [] => exitCode ending

def main (args : List String) : IO UInt32 := do
  return ((← perform args) % 256).toNat.toUInt32
