import Birokrasi.Bytecode.Compiler
import Birokrasi.Challenge.Prime
import Birokrasi.Challenge.Stages
import Birokrasi.Structured.Parser

/-!
# The ordeal

The hardest of the challenges (`HellModeCTF`): a flag in four stages, and traps that give out false flags
(`HoneytrapDetector`).
-/

namespace Birokrasi.Challenge

open Birokrasi.Guard (Snapshot)

/-! ## Conditions -/

def requiredSequence : List Value := [.int 0x60, .int 0x10, .int 0x60, .int 0x10]

def containsRun (part : List Value) : List Value → Bool
  | [] => part.isEmpty
  | x :: rest => (items part (x :: rest)) || containsRun part rest
where
  items : List Value → List Value → Bool
    | [], _ => true
    | _ :: _, [] => false
    | p :: ps, x :: xs => p.same x && items ps xs

def hasSequence (state : Snapshot) : Except Fault Bool := do
  match state "opcode_history" with
  | none => return false
  | some history =>
    let n ← history.length
    match history with
    | .list items => return requiredSequence.length ≤ n && containsRun requiredSequence items
    | _ => return false

/-- All of the budget has been spent early, and the work is done. -/
def spentInTime (state : Snapshot) : Except Fault Bool := do
  if !(state.getD "anggaran" (.int 100)).equal (.int 0) then return false
  if !(← (state.getD "step_count" (.int 0)).less (.int 50)) then return false
  (state.getD "progress" (.int 0)).greaterEq (.int 100)

def primeLoss (state : Snapshot) : Except Fault Bool :=
  isPrime (state.getD "korupsi_total" (.int 0))

def debugging (state : Snapshot) : Bool := (state.getD "debug_mode" (.bool false)).truthy

def ordealStages : List Stage :=
  [{ id := 1, part := "FLAG\x7bH3LL_", condition := spentInTime },
    { id := 2, part := "M0D3_", condition := primeLoss },
    { id := 3, part := "CTF_", condition := hasSequence },
    { id := 4, part := "M4ST3R\x7d", condition := fun state => .ok !(debugging state) }]

/-- A trap: when it is set off, a false flag is given out. -/
structure Trap where
  condition : Snapshot → Except Fault Bool
  flag : String

def traps : List Trap :=
  [{ condition := fun state => .ok (debugging state), flag := "FLAG\x7bD3BUG_M0D3_US3R_F4K3\x7d" },
    { condition := fun state => (state.getD "step_count" (.int 0)).greater (.int 200)
      flag := "FLAG\x7bT00_SL0W_TRY_4G41N\x7d" },
    { condition := fun state => do
        return (← (state.getD "korupsi_total" (.int 0)).mod (.int 100)).equal (.int 0)
      flag := "FLAG\x7bN1C3_GUESS_BUT_N0\x7d" }]

/-! ## Progress -/

structure Ordeal where
  seed : Int := 42
  stages : List Stage := ordealStages
  looks : Nat := 0
  printed : Array String := #[]

namespace Ordeal

abbrev Act := ExceptT Fault (StateM Ordeal)

def print (line : String) : Act Unit :=
  modify fun o => { o with printed := o.printed.push (line ++ "\n") }

def calculate {α : Type} (r : Except Fault α) : Act α :=
  match r with
  | .ok a => pure a
  | .error f => throw f

/-- Looks at the state of a run: traps first, then stages. -/
def look (state : Snapshot) : Act Unit := do
  modify fun o => { o with looks := o.looks + 1 }
  for trap in traps do
    if (← calculate (trap.condition state)) then print trap.flag
  let (r, stages) := checkAll state (← get).stages
  -- The stages met before a fault stay met, but their parts are not printed then.
  modify fun o => { o with stages }
  for part in (← calculate r) do
    print ("🔓 Stage unlocked: " ++ part)
  match wholeFlag? stages with
  | some flag =>
    print ("\n🏆 COMPLETE FLAG: " ++ flag)
    print "🎉 Hell Mode CTF SOLVED!"
  | none => pure ()

/-- One more stage, met when a figure has a value. -/
def addStage (o : Ordeal) (id : Int) (part key : String) (value : Value) : Ordeal :=
  { o with
    stages := o.stages ++
      [{ id, part, condition := fun state => .ok ((state.getD key (.int 0)).equal value) }] }

end Ordeal

/-! ## Hints -/

/-- A letter moved on by thirteen in its alphabet. Letters of other alphabets are moved as if they
followed the small letters. -/
def rotateChar (c : Char) : Char :=
  if Text.isLetter c then
    let base : Int := if Text.isCapital c then 65 else 97
    Char.ofNat (((c.toNat : Int) - base + 13) % 26 + base).toNat
  else c

def rotate (s : String) : String := s.map rotateChar

/-- The hint of a stage, in letters that are moved on. -/
def hint (stage : Int) : String :=
  rotate <|
    if stage = 1 then "H1nt: P3rf3ct budg3t + sp33d = st4g3 1"
    else if stage = 2 then "H1nt: Pr1m3 numb3rs 4r3 sp3c14l"
    else if stage = 3 then "H1nt: Opc0d3 p4tt3rn: K0RUPSI PRINT K0RUPSI PRINT"
    else if stage = 4 then "H1nt: N0 d3bugg1ng 4ll0w3d"
    else "No hint available"

/-! ## The program -/

def ordealLines : List String :=
  ["lapor \"🔥 HELL MODE CTF CHALLENGE 🔥\"", "mulai", "    set progress = 0",
    "    set target = 100", "    ", "    Korupsi(11)", "    lapor progress",
    "    set progress = progress + 25", "    ", "    Korupsi(13)", "    lapor progress",
    "    set progress = progress + 25", "    ", "    Korupsi(17)",
    "    set progress = progress + 25", "    ", "    Korupsi(19)",
    "    set progress = progress + 25", "    ", "    jika progress >= target",
    "        lapor \"Challenge complete!\"", "    akhir", "akhir"]

def ordealImage : Except Structured.Failure Bytecode.Image := do
  return Bytecode.compile (← Structured.Program.ofLines ordealLines)

end Birokrasi.Challenge
