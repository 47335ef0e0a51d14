import Birokrasi.Bytecode.Image
import Birokrasi.Random.Twister
import Birokrasi.Value.Convert

/-!
# The machine: state

A stack machine with a budget, as `HambaVM` and `ObfuscatedVM` have it. The budget and the progress of the
project are held twice: as figures of the machine, and in the two slots of the variables that programs see
them in.
-/

namespace Birokrasi

namespace Machine

/-- What the editions of the machine differ in. -/
structure Edition where
  excuses : List String
  zeroDivision : String
  audit : String
  /-- Whether the report of an unknown operation says where it stands. -/
  saysWhere : Bool
  /-- What the code is held in. -/
  memory : Indexed

def Edition.plain : Edition where
  excuses :=
    ["🤝 Dana dialihkan untuk 'keperluan mendesak'",
      "💼 Budget optimization berhasil (ke rekening pribadi)", "🎯 Efisiensi anggaran tercapai",
      "📊 Realisasi anggaran... ke luar negeri"]
  zeroDivision := "Pembagian dengan 0 (kayak bagi anggaran di akhir tahun)"
  audit := "💸 Dana habis! Proyek diaudit KPK!"
  saysWhere := true
  memory := .bytes

def Edition.guarded : Edition where
  excuses :=
    ["🤝 Dana dialihkan untuk 'keperluan mendesak'", "💼 Budget optimization berhasil",
      "🎯 Efisiensi anggaran tercapai"]
  zeroDivision := "Division by zero"
  audit := "Dana habis! Proyek diaudit!"
  saysWhere := false
  memory := .buffer

inductive Failure where
  | fault (f : Fault)
  | divisionByZero
  | audited
  | stalled (info : String)
  | unknownOpcode (code pc : Int)
  | shielded
  | trapped

def Failure.message (e : Edition) : Failure → String
  | .fault f => f.message
  | .divisionByZero => e.zeroDivision
  | .audited => e.audit
  | .stalled info => "Proyek mangkrak: " ++ info
  | .unknownOpcode code pc =>
    "Unknown opcode: 0x" ++ Decimal.paddedHex 2 code ++
      (if e.saysWhere then " at PC=" ++ Decimal.intText pc else "")
  | .shielded => "Execution terminated by security shield"
  | .trapped => "Debugger detected. VM terminated."

end Machine

structure Machine where
  edition : Machine.Edition := .plain
  code : Array UInt8
  constants : Array Value
  strings : Array String
  slots : Table String Int
  /-- The values pushed, the latest first. -/
  stack : List Value := []
  «variables» : Table Int Value := []
  pc : Int := 0
  steps : Nat := 0
  stepLimit : Int := 100000
  traced : Bool := false
  budget : Value := .int 100
  progress : Value := .int 0
  embezzled : Int := 0
  timeline : Int := 0
  rng : Twister
  printed : Array String := #[]
  waits : Array Value := #[]

namespace Machine

/-- The slot of a variable, where a program has given it one; the budget and the progress have one
in any case. -/
def slotIn (slots : Table String Int) (name : String) : Int :=
  match slots.get? name with
  | some id => id
  | none => if name = "anggaran" then 9998 else if name = "progress" then 9999 else 0

def budgetSlot (m : Machine) : Int := slotIn m.slots "anggaran"

def progressSlot (m : Machine) : Int := slotIn m.slots "progress"

def start (edition : Edition) (image : Bytecode.Image) (seed : Int) (stepLimit : Int) (traced : Bool) :
    Machine :=
  { edition
    code := image.code.toArray
    constants := image.constants.toArray
    strings := image.strings.toArray
    slots := image.slots
    «variables» :=
      Table.put (slotIn image.slots "progress") (.int 0)
        (Table.put (slotIn image.slots "anggaran") (.int 100) [])
    stepLimit
    traced
    rng := Twister.ofSeed seed }

/-- An action of the machine, which keeps the changes made before a failure. -/
abbrev Run := ExceptT Failure (StateM Machine)

def calculate {α : Type} (r : Except Fault α) : Run α :=
  match r with
  | .ok a => pure a
  | .error f => throw (.fault f)

def print (line : String) : Run Unit :=
  modify fun m => { m with printed := m.printed.push (line ++ "\n") }

def wait (time : Value) : Run Unit := do
  calculate time.waitable
  modify fun m => { m with waits := m.waits.push time }

def push (v : Value) : Run Unit := modify fun m => { m with stack := v :: m.stack }

def pop : Run Value := do
  match (← get).stack with
  | [] => throw (.fault .emptyPop)
  | v :: rest =>
    modify fun m => { m with stack := rest }
    return v

def skip (size : Int) : Run Unit := modify fun m => { m with pc := m.pc + size }

def goto (address : Int) : Run Unit := modify fun m => { m with pc := address }

/-- The byte at an address. A negative address counts from the end. -/
def byteAt? (m : Machine) (address : Int) : Option UInt8 :=
  (Bytecode.place? m.code.size address).bind fun i => m.code[i]?

def fetch (address : Int) : Run UInt8 := do
  let m ← get
  match m.byteAt? address with
  | some b => return b
  | none => throw (.fault (.indexRange m.edition.memory))

/-- The operand of the instruction at hand; one that is cut off is zero. -/
def operand : Run Nat := do
  let m ← get
  if m.code.size ≤ m.pc + 2 then return 0
  let low ← fetch (m.pc + 1)
  let high ← fetch (m.pc + 2)
  return low.toNat + 256 * high.toNat

def drawBetween (low high : Int) : Run Int := do
  let m ← get
  let drawn := m.rng.between low high
  set { m with rng := drawn.2 }
  return drawn.1

def drawExcuse : Run String := do
  let m ← get
  let drawn := m.rng.choice "" m.edition.excuses
  set { m with rng := drawn.2 }
  return drawn.1

end Machine

end Birokrasi
