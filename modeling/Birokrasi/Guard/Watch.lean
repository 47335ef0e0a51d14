import Birokrasi.Table
import Birokrasi.Value.Arithmetic

/-!
# Watching a run

Signs that a run is being watched: steps that come too slowly, a run that takes too long, an operation
that comes too often (`AntiDebugger`, `AntiAnalysis`, `IntegrityChecker`). Times are given by the caller.
-/

namespace Birokrasi.Guard

structure Watch where
  paranoia : Int := 1
  started : Value := .float 0.0
  /-- The times of the steps, the latest first. -/
  stamps : List Value := []
  suspicious : Nat := 0
  detected : Bool := false

inductive Alarm where
  | fault (f : Fault)
  | debugger
  | tampered

def Alarm.message : Alarm → String
  | .fault f => f.message
  | .debugger => "Debugger detected. VM terminated."
  | .tampered => "Bytecode integrity check failed"

namespace Watch

def gaps : List Value → Except Fault (List Value)
  | later :: earlier :: rest => do
    let more ← gaps (earlier :: rest)
    return more ++ [← later.sub earlier]
  | _ => return []

def total (vs : List Value) : Except Fault Value := vs.foldlM Value.add (.int 0)

/-- The mean time between the latest ten steps. -/
def meanGap (stamps : List Value) : Except Fault Value := do
  let differences ← gaps (stamps.take 10)
  (← total differences).div (.int differences.length)

/-- Notes a step at a time. From the eleventh on, more than half a second between steps is
suspicious, and more than five suspicious steps give a debugger away. -/
def noteStep (w : Watch) (now : Value) : Except Fault (Bool × Watch) := do
  let w := { w with stamps := now :: w.stamps }
  if w.stamps.length ≤ 10 then return (false, w)
  if (← (← meanGap w.stamps).greater (.float 0.5)) then
    let w := { w with suspicious := w.suspicious + 1 }
    if 5 < w.suspicious then return (true, { w with detected := true })
    return (false, w)
  return (false, w)

def checkElapsed (w : Watch) (now : Value) : Except Fault (Bool × Watch) := do
  let elapsed ← now.sub w.started
  if (← elapsed.greater (.int 300)) then return (true, { w with detected := true })
  return (false, w)

def overdue (w : Watch) (now expected : Value) : Except Fault Bool := do
  let elapsed ← now.sub w.started
  elapsed.greater (← expected.mul (.int 2))

/-- What is printed about a debugger; an anxious guard raises an alarm instead. -/
def trap (w : Watch) : Except Alarm (Option String) :=
  if !w.detected then .ok none
  else if 2 ≤ w.paranoia then .error .debugger
  else if 1 ≤ w.paranoia then .ok (some "⚠️ Anomaly detected in execution environment")
  else .ok none

end Watch

/-! ## Frequencies -/

structure Analyst where
  detected : Bool := false
  counts : Table Int Nat := []

namespace Analyst

def limit : Nat := 1000

def note (a : Analyst) (op : Int) : Bool × Analyst :=
  let n := (a.counts.get? op).getD 0 + 1
  let a := { a with counts := a.counts.put op n }
  if limit < n then (true, { a with detected := true }) else (false, a)

end Analyst

/-! ## Integrity -/

def checksum (code : Text.Bytes) : UInt32 :=
  code.foldl (fun h b => (h <<< 5) + h + b.toUInt32) 5381

/-- Whether code has the sum expected of it; without one, any code has. -/
def verify (expected : Option Int) (code : Text.Bytes) : Bool :=
  match expected with
  | none => true
  | some n => n = (checksum code).toNat

def fakeConstants : List Nat := [0xDEADBEEF, 0xCAFEBABE, 0x13371337, 0x42424242]

def fakeErrors : List String :=
  ["Segmentation fault (core dumped)", "Access violation at 0x0000000", "Stack overflow detected",
    "Memory corruption in heap", "Invalid opcode at offset 0x42"]

end Birokrasi.Guard
