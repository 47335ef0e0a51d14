import Birokrasi.Command.World
import Birokrasi.Machine.Execution
import Birokrasi.Text.Lower

/-!
# The debugger

A machine that is asked, line by line, to go on and to show itself (`cmd_debug`).
-/

namespace Birokrasi.Command

open Birokrasi.Text

inductive Reply where
  | next (m : Machine)
  | quit
  | failed (message : String)

/-- The machine after an action, with its output printed. -/
def observed (m : Machine) : Act Machine := do
  absorb m.printed m.waits
  return { m with printed := #[], waits := #[] }

def figures (m : Machine) : List (String × String) :=
  [("pc", Decimal.intText m.pc), ("stack", (Value.list m.stack.reverse).shown),
    ("anggaran", m.budget.shown), ("progress", m.progress.shown),
    ("korupsi_total", Decimal.intText m.embezzled), ("timeline", Decimal.intText m.timeline),
    ("step_count", toString m.steps)]

def debuggerHelp : List String :=
  ["Commands:", "  step/s    - Execute one instruction", "  run/r     - Run to completion",
    "  stack     - Show stack", "  vars      - Show variables", "  state     - Show VM state",
    "  quit/q    - Exit debugger"]

def answer (line : String) (m : Machine) : Act Reply := do
  let command := lowered (trimString line)
  if ["quit", "q"].contains command then return .quit
  else if ["step", "s"].contains command then
    if (m.code.size : Int) ≤ m.pc then
      printInfo "Program selesai"
      return .next m
    else
      let (r, m) := Machine.perform Machine.step m
      let m ← observed m
      match r with
      | .ok _ => return .next m
      | .error e => return .failed (e.message m.edition)
  else if ["run", "r"].contains command then
    printInfo "Running to completion..."
    return .next (← observed (m.run (.float 0.0) false).2)
  else if command = "stack" then
    print ("Stack (" ++ toString m.stack.length ++ " items): " ++
      (Value.list m.stack.reverse).shown)
    return .next m
  else if command = "vars" then
    print ("Variables: " ++ (Value.record (m.variables.map fun e => (.int e.1, e.2))).shown)
    return .next m
  else if command = "state" then
    (figures m).forM fun (name, text) => print ("  " ++ name ++ ": " ++ text)
    return .next m
  else if ["help", "h"].contains command then
    debuggerHelp.forM print
    return .next m
  else
    printError ("Unknown command: " ++ command)
    return .next m

def promptText : String := coloured .info "(hdb)" ++ " "

def debuggerFailure (message : String) : Act Int := do
  printError ("Debugger error: " ++ message)
  return 1

def session : List String → Machine → Act Int
  | [], _ => do
    write promptText
    debuggerFailure Fault.endOfInput.message
  | line :: rest, m => do
    write promptText
    match ← answer line m with
    | .quit => return 0
    | .failed message => debuggerFailure message
    | .next m => session rest m

end Birokrasi.Command
