import Birokrasi.Structured.Syntax
import Birokrasi.Table
import Birokrasi.Value.Convert

/-!
# The structured language: state

What a running program holds (`Runtime`): a global scope and the scopes of the blocks that are being
executed, the procedures, the count of steps, and what has been printed. The global scope is always there.
-/

namespace Birokrasi.Structured

abbrev Scope := Table String Value

structure Settings where
  stepLimit : Int := 2000
  challenge : Bool := false
  delay : Value := .float 0.0
  trace : Bool := false

structure State where
  settings : Settings := {}
  global : Scope :=
    [("anggaran", .int 1000000000), ("progress", .int 0), ("tahun", .int 2011)]
  /-- The scopes inside the global one, innermost first. -/
  locals : List Scope := []
  procedures : Table String (List Stmt) := []
  steps : Nat := 0
  embezzled : Value := .int 0
  printed : Array String := #[]
  waits : Array Value := #[]

/-- An action on the state, which keeps the changes made before a failure. -/
abbrev Run := ExceptT Failure (StateM State)

namespace State

def scopes (s : State) : List Scope := s.global :: s.locals.reverse

def push (s : State) : State := { s with locals := [] :: s.locals }

/-- Closes the innermost scope; the global one stays. -/
def pop (s : State) : State := { s with locals := s.locals.tail }

def set (s : State) (name : String) (v : Value) : State :=
  match s.locals with
  | [] => { s with global := s.global.put name v }
  | scope :: rest => { s with locals := scope.put name v :: rest }

def setGlobal (s : State) (name : String) (v : Value) : State :=
  { s with global := s.global.put name v }

/-- The value of a name in the innermost scope that has it. -/
def get? (s : State) (name : String) : Option Value :=
  (s.locals ++ [s.global]).findSome? (Table.get? name)

def print (s : State) (line : String) : State :=
  { s with printed := s.printed.push (line ++ "\n") }

end State

def ofFault {α : Type} (r : Except Fault α) : Except Failure α := r.mapError .fault

def Run.ofExcept {α : Type} : Except Failure α → Run α
  | .ok a => pure a
  | .error e => throw e

def print (line : String) : Run Unit := modify (·.print line)

def State.lookup (s : State) (name : String) : Except Failure Value :=
  match s.get? name with
  | some v => .ok v
  | none => .error (.unboundName name)

/-- The text of a value in reports. Doubles have at most six digits. -/
def reportText : Value → String
  | .none => "kosong"
  | .bool b => if b then "benar" else "salah"
  | .float x => Decimal.shownBrief x
  | v => v.shown

/-! ## The work of a step -/

def wait (time : Value) : Run Unit := do
  Run.ofExcept (ofFault time.waitable)
  modify fun s => { s with waits := s.waits.push time }

/-- Counts a step: the year goes on by a hundredth, and the delay is waited for. -/
def tick : Run Unit := do
  modify fun s => { s with steps := s.steps + 1 }
  let s ← get
  let year ← Run.ofExcept (ofFault (Value.add ((s.global.get? "tahun").getD (.int 0)) (.float 0.01)))
  modify (·.setGlobal "tahun" year)
  if (← Run.ofExcept (ofFault (s.settings.delay.greater (.int 0)))) then
    wait s.settings.delay
  -- The limit comes last: the year, the delay and the wait may fail before it.
  if s.settings.stepLimit < s.steps then throw .stepLimit

def advance (delta : Value) : Run Unit := do
  let s ← get
  let sum ← Run.ofExcept (ofFault (Value.add ((s.global.get? "progress").getD (.int 0)) delta))
  let small ← Run.ofExcept (ofFault (sum.less (.int 100)))
  modify (·.setGlobal "progress" (if small then sum else .int 100))

def challengeFlag : String := "FLAG\x7bhambalang_ctf_korupsi\x7d"

/-- Takes a percentage of the budget and returns the amount. Nothing left is a failure, raised after
the budget has been written. -/
def embezzle (percent : Value) : Run Float := do
  let source ← Run.ofExcept ((← get).lookup "anggaran")
  let budget ← Run.ofExcept (ofFault source.asFloat)
  let share ← Run.ofExcept (ofFault (do (← percent.div (.float 100.0)).asFloat))
  let amount := budget * share
  let left := budget - amount
  modify (·.setGlobal "anggaran" (if left < 0.0 then .int 0 else .float left))
  let total ← Run.ofExcept (ofFault ((← get).embezzled.add (.float amount)))
  modify fun s => { s with embezzled := total }
  -- A budget that comes to exactly zero is exhausted too.
  if left ≤ 0.0 then throw .fundsExhausted
  if (← get).settings.challenge then
    let whole ← Run.ofExcept (ofFault (do Number.intOfFloat (← total.asFloat)))
    if Int.fmod whole 424242 = 0 then print challengeFlag
  return amount

end Birokrasi.Structured
