import Birokrasi.Machine.State

/-!
# The machine: execution

The effect of each operation, and runs of the plain machine (`HambaVM`). A run ends at the end of the
code, at the operation that finishes it, at a failure, or when the steps are used up.
-/

namespace Birokrasi.Machine

open Birokrasi.Bytecode

/-! ## Operations -/

def binary (f : Value → Value → Run Value) : Run Unit := do
  let b ← pop
  let a ← pop
  push (← f a b)
  skip 1

def truth (b : Bool) : Value := .int (if b then 1 else 0)

/-- The quotient: of two integers it is rounded down. -/
def divide (a b : Value) : Run Value := do
  if b.equal (.int 0) then throw .divisionByZero
  match a.int?, b.int? with
  | some _, some _ => calculate (a.floorDiv b)
  | _, _ => calculate (a.div b)

def pushPooled : Run Unit := do
  let n ← operand
  let m ← get
  let pooled := if 0x8000 ≤ n then m.strings[n - 0x8000]?.map Value.text else m.constants[n]?
  match pooled with
  | some v => push v
  | none => throw (.fault (.indexRange .list))
  skip 3

/-- Pushes the value of a variable; one that has none counts as zero. -/
def loadVariable : Run Unit := do
  let id ← operand
  let m ← get
  push ((m.variables.get? (id : Int)).getD (.int 0))
  skip 3

/-- Gives a variable a value, and the machine's figure with it. -/
def storeVariable : Run Unit := do
  let id ← operand
  let v ← pop
  modify fun m => { m with «variables» := m.variables.put (id : Int) v }
  -- The slots are those of the program, which may give both figures the same one.
  modify fun m =>
    if (id : Int) = m.budgetSlot then { m with budget := v }
    else if (id : Int) = m.progressSlot then { m with progress := v }
    else m
  skip 3

def percentage (v : Value) : Value :=
  match v.number? with
  | some _ => v
  | none => .int 0

def share (budget percent : Value) : Except Fault Int := do
  let part ← budget.mul (← percent.div (.int 100))
  match part.number? with
  | some n => n.toInt
  | none => .ok 0

/-- Takes a percentage of the budget. A budget below zero is a failure, after all has been
written. -/
def embezzle : Run Unit := do
  let percent ← pop
  let amount ← calculate (share (← get).budget (percentage percent))
  let left ← calculate ((← get).budget.sub (.int amount))
  modify fun m => { m with budget := left, embezzled := m.embezzled + amount }
  -- The time is drawn before the excuse, and both also when the budget turns out to be below zero.
  let time ← drawBetween 2 8
  modify fun m => { m with timeline := m.timeline + time }
  modify fun m => { m with «variables» := m.variables.put m.budgetSlot m.budget }
  let excuse ← drawExcuse
  print (excuse ++ " (-" ++ Decimal.intText amount ++ ")")
  if (← calculate (left.less (.int 0))) then throw .audited
  skip 1

def stall : Run Unit := do
  let info ← pop
  print ("⚠️ PROYEK MANGKRAK: " ++ info.shown)
  throw (.stalled info.shown)

/-- Goes back for another round, if more than one is left of those on top of the stack. -/
def meet : Run Unit := do
  match (← get).stack with
  | [] => skip 3
  | count :: rest =>
    if (← calculate (count.greater (.int 1))) then
      let left ← calculate (count.sub (.int 1))
      modify fun m => { m with stack := left :: rest }
      -- The operand is read only if it is gone to.
      goto (← operand)
    else
      let _ ← pop
      skip 3

def jumpIfFalse : Run Unit := do
  let address ← operand
  let condition ← pop
  if condition.truthy then skip 3 else goto address

def sleep : Run Unit := do
  let time ← pop
  wait (← calculate (time.div (.float 1000.0)))
  skip 1

def opcode? (code : Int) : Option Opcode :=
  if 0 ≤ code ∧ code < 256 then Opcode.ofByte? code.toNat.toUInt8 else none

/-- Reports a number that is no operation of the machine, which is a failure. -/
def refuse (code : Int) : Run Unit := do throw (.unknownOpcode code (← get).pc)

def effect (op : Opcode) : Run Unit :=
  match op with
  | .nop => skip 1
  | .push => pushPooled
  | .pop => do
    let _ ← pop
    skip 1
  | .load => loadVariable
  | .store => storeVariable
  | .print => do
    let v ← pop
    print v.shown
    skip 1
  | .add => binary fun a b => calculate (a.add b)
  | .sub => binary fun a b => calculate (a.sub b)
  | .mul => binary fun a b => calculate (a.mul b)
  | .div => binary divide
  | .eq => binary fun a b => return truth (a.equal b)
  | .lt => binary fun a b => return truth (← calculate (a.less b))
  | .gt => binary fun a b => return truth (← calculate (a.greater b))
  | .jump => do goto (← operand)
  | .jumpIfFalse => jumpIfFalse
  | .embezzle => embezzle
  | .stall => stall
  | .meeting => meet
  | .sleep => sleep
  | .finish => pure ()
  | .mod | .call | .ret => refuse op.byte.toNat

/-- Executes an operation, and says whether the run goes on. -/
def execute (code : Int) : Run Bool := do
  match opcode? code with
  | some op => effect op
  | none => refuse code
  return opcode? code ≠ some .finish

/-! ## Runs -/

def perform {α : Type} (r : Run α) (m : Machine) : Except Failure α × Machine := r.run.run m

def traceLine (m : Machine) (b : UInt8) : String :=
  "[VM " ++ Decimal.paddedInt 4 m.pc ++ "] " ++ Decimal.paddedText 12 (byteName b) ++
    " | Stack: " ++ toString m.stack.length ++ " | Anggaran: " ++ m.budget.shown ++
    " | Progress: " ++ m.progress.shown

/-- One round of a run: the byte at hand is counted, shown and executed, and the delay is waited
for. -/
def round (delay : Value) : Run Bool := do
  modify fun m => { m with steps := m.steps + 1 }
  let b ← fetch (← get).pc
  let m ← get
  if m.traced then print (m.traceLine b)
  if (← execute b.toNat) then
    if (← calculate (delay.greater (.int 0))) then wait delay
    return true
  else return false

def loop (delay : Value) : (rounds : Nat) → Machine → Except Failure Unit × Machine
  | 0, m => (.ok (), m)
  | rounds + 1, m =>
    if m.pc < m.code.size then
      match perform (round delay) m with
      | (.ok true, m) => loop delay rounds m
      | (.ok false, m) => (.ok (), m)
      | (.error e, m) => (.error e, m)
    else (.ok (), m)

def roundsLeft (m : Machine) : Nat := (m.stepLimit - m.steps).toNat

def awardFlag : Run Unit := do
  let m ← get
  let spent := m.budget.equal (.int 0)
  if (← if spent then calculate (m.progress.greaterEq (.int 100)) else pure false) then
    print "\n🚩 FLAG\x7bH4MB4_VM_M4ST3R_PERFECT_BUDGET\x7d"
  else if m.embezzled % 424242 = 0 ∧ 0 < m.embezzled then
    print "\n🚩 FLAG\x7bK0RUPSI_NUMBER_TH30RY_42\x7d"

/-- The end of a run: a failure is reported, and the answer says whether there was none. -/
def conclude (r : Except Failure Unit) (m : Machine) : Bool × Machine :=
  match r with
  | .ok _ => (true, m)
  | .error e =>
    (false,
      { m with printed := m.printed.push ("❌ RUNTIME ERROR: " ++ e.message m.edition ++ "\n") })

def run (delay : Value) (challenge : Bool) (m : Machine) : Bool × Machine :=
  match loop delay m.roundsLeft m with
  | (.ok _, m) =>
    let (r, m) := if challenge then perform awardFlag m else (.ok (), m)
    conclude r m
  | (.error e, m) => conclude (.error e) m

def step : Run Bool := do
  let m ← get
  if m.code.size ≤ m.pc then return false
  let b ← fetch m.pc
  execute b.toNat

end Birokrasi.Machine
