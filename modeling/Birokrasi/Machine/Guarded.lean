import Birokrasi.Challenge.Ordeal
import Birokrasi.Disguise.Mapping
import Birokrasi.Disguise.Mutation
import Birokrasi.Guard.Shield
import Birokrasi.Machine.Execution

/-!
# The guarded machine

The machine of `ObfuscatedVM`, with a shield that watches its runs, a mutator that changes its code, and a
mapping that its operations may be hidden behind. It has operations of its own, of which none waits.
-/

namespace Birokrasi.Machine

open Birokrasi.Bytecode (Opcode)
open Birokrasi.Challenge (Ordeal)
open Birokrasi.Disguise (Mapping Mutator)
open Birokrasi.Guard (Shield Snapshot)

structure Guarded where
  core : Machine
  shield : Shield
  mutator : Mutator
  mapping : Option Mapping := none
  history : Array UInt8 := #[]
  ordeal : Option Ordeal := none

namespace Guarded

def start (image : Bytecode.Image) (seed stepLimit : Int) (traced : Bool) (paranoia : Int)
    (hidden : Bool) : Guarded where
  core := Machine.start .guarded image seed stepLimit traced
  shield := Shield.start paranoia seed (.float 0.0)
  mutator := Mutator.ofSeed seed
  mapping := if hidden then some (Mapping.ofSeed seed) else none

/-- The effect of an operation. There is none that waits. -/
def effect (op : Opcode) : Run Unit :=
  match op with
  | .nop => skip 1
  | .push => pushPooled
  | .pop => do
    let _ ← pop
    skip 1
  | .load => loadVariable
  | .store => storeVariable
  | .print => do
    let v ← pop
    Machine.print v.shown
    skip 1
  | .add => binary fun a b => calculate (a.add b)
  | .sub => binary fun a b => calculate (a.sub b)
  | .mul => binary fun a b => calculate (a.mul b)
  | .div => binary divide
  | .lt => binary fun a b => return truth (← calculate (a.less b))
  | .gt => binary fun a b => return truth (← calculate (a.greater b))
  | .eq => binary fun a b => return truth (a.equal b)
  | .jump => do goto (← operand)
  | .jumpIfFalse => jumpIfFalse
  | .embezzle => embezzle
  | .stall => stall
  | .meeting => meet
  | .finish => pure ()
  | .mod | .call | .ret | .sleep => Machine.refuse op.byte.toNat

def execute (code : Int) : Run Bool := do
  match opcode? code with
  | some op => effect op
  | none => Machine.refuse code
  return opcode? code ≠ some .finish

/-- An action of the guarded machine, which keeps the changes made before a failure. -/
abbrev Act := ExceptT Failure (StateM Guarded)

def onCore {α : Type} (r : Run α) : Act α := do
  let g ← get
  let (outcome, core) := perform r g.core
  set { g with core }
  match outcome with
  | .ok a => return a
  | .error e => throw e

def print (line : String) : Act Unit := onCore (Machine.print line)

def reveal (g : Guarded) (b : UInt8) : UInt8 :=
  match g.mapping with
  | some m => m.reveal b
  | none => b

/-- What the shield and the ordeal can ask about the machine. -/
def snapshot (g : Guarded) : Snapshot := fun name =>
  let m := g.core
  if name = "pc" then some (.int m.pc)
  else if name = "stack" then some (.list m.stack.reverse)
  else if name = "anggaran" then some m.budget
  else if name = "progress" then some m.progress
  else if name = "korupsi_total" then some (.int m.embezzled)
  else if name = "timeline" then some (.int m.timeline)
  else if name = "step_count" then some (.int m.steps)
  else if name = "debug_mode" then some (.bool m.traced)
  else if name = "opcode_history" then
    some (.list (g.history.toList.map fun b => .int b.toNat))
  else none

def ofAlarm : Guard.Alarm → Failure
  | .fault f => .fault f
  | .debugger | .tampered => .trapped

def consultShield (op : UInt8) : Act Unit := do
  let g ← get
  let (outcome, shield, lines) := (Shield.onOperation op.toNat g.snapshot).run.run (g.shield, [])
  set { g with shield }
  lines.forM print
  match outcome with
  | .ok _ => return ()
  | .error e => throw (ofAlarm e)

def consultOrdeal : Act Unit := do
  let g ← get
  match g.ordeal with
  | none => return ()
  | some ordeal =>
    let (outcome, ordeal) := (Ordeal.look g.snapshot).run.run { ordeal with printed := #[] }
    set
      { g with
        core := { g.core with printed := g.core.printed ++ ordeal.printed }
        ordeal := some ordeal }
    match outcome with
    | .ok _ => return ()
    | .error f => throw (.fault f)

def consultMutator (op : UInt8) : Act Unit := do
  let g ← get
  match g.mutator.afterOperation g.core.code g.core.pc op.toNat with
  | .ok (code, mutator) => set { g with core := { g.core with code }, mutator }
  | .error f => throw (.fault f)

def traceLine (m : Machine) (op : UInt8) : String :=
  "[OVM " ++ Decimal.paddedInt 4 m.pc ++ "] " ++ Decimal.paddedText 12 (Bytecode.byteName op) ++
    " | Stack: " ++ toString m.stack.length ++ " | Ang: " ++ m.budget.shown

/-- The end that a shield puts to a run: an anxious one makes it a failure. -/
def refuse : Act Bool := do
  print "🚨 Abnormal execution environment detected"
  if 2 ≤ (← get).shield.watch.paranoia then throw .shielded
  return false

/-- The part of a round that executes an operation. Every tenth step the code may change. -/
def operate (delay : Value) (op : UInt8) : Act Bool := do
  if (← get).core.traced then print (traceLine (← get).core op)
  if !(← onCore (execute op.toNat)) then return false
  -- The mutator is given the address that the operation has led to, not its own.
  if (← get).core.steps % 10 = 0 then consultMutator op
  if (← onCore (calculate (delay.greater (.int 0)))) then onCore (wait delay)
  return true

def round (delay : Value) : Act Bool := do
  modify fun g => { g with core := { g.core with steps := g.core.steps + 1 } }
  if !(← get).shield.calm then refuse
  else
    let b ← onCore (fetch (← get).core.pc)
    let op := (← get).reveal b
    -- What is asked about the machine from here on has the operation in it that is not executed yet.
    modify fun g => { g with history := g.history.push op }
    consultShield op
    consultOrdeal
    operate delay op

def loop (delay : Value) : (rounds : Nat) → Guarded → Except Failure Unit × Guarded
  | 0, g => (.ok (), g)
  | rounds + 1, g =>
    if g.core.pc < g.core.code.size then
      match (round delay).run.run g with
      | (.ok true, g) => loop delay rounds g
      | (.ok false, g) => (.ok (), g)
      | (.error e, g) => (.error e, g)
    else (.ok (), g)

def prepare (hell : Bool) (g : Guarded) : Guarded :=
  if hell then
    let (seed, rng) := g.core.rng.between 0 999999
    { g with core := { g.core with rng }, ordeal := some { seed } }
  else { g with ordeal := none }

def conclude (r : Except Failure Unit) (g : Guarded) : Bool × Guarded :=
  let (ok, core) := Machine.conclude r g.core
  (ok, { g with core })

/-- Runs the machine, through an ordeal if `hell` is set. -/
def run (delay : Value) (challenge hell : Bool) (g : Guarded) : Bool × Guarded :=
  let g := g.prepare hell
  match loop delay g.core.roundsLeft g with
  | (.ok _, g) =>
    let (r, g) := if challenge && !hell then (onCore awardFlag).run.run g else (.ok (), g)
    g.conclude r
  | (.error e, g) => g.conclude (.error e)

end Guarded

end Birokrasi.Machine
