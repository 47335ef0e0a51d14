import Birokrasi.Bytecode.Image
import Birokrasi.Random.Twister

/-!
# Flattened code

Code is cut into blocks, the blocks are numbered at random, and the numbers are pushed one after the
other (`ControlFlowFlattener`, `StateObfuscator`). `Dispatcher` is what goes through the numbers, named
`DispatcherVM` in the sources.
-/

namespace Birokrasi.Disguise

open Birokrasi.Bytecode
open Birokrasi.Text (Bytes)

/-- Where a block starts and ends. The end may lie beyond the code, by the operand that is
missing. -/
structure Block where
  start : Nat
  stop : Nat

def endsBlock (b : UInt8) : Bool :=
  b = Opcode.jump.byte || b = Opcode.jumpIfFalse.byte || b = Opcode.finish.byte

def stride (b : UInt8) : Nat :=
  if b = Opcode.push.byte || b = Opcode.load.byte || b = Opcode.store.byte then 3 else 1

theorem stride_pos (b : UInt8) : 0 < stride b := by
  unfold stride
  split <;> decide

/-- The blocks from address `i` on, with an open one that starts at `start`. -/
def blocksFrom (code : Array UInt8) (start i : Nat) : List Block :=
  if h : i < code.size then
    if endsBlock code[i] then ⟨start, i + 3⟩ :: blocksFrom code (i + 3) (i + 3)
    else
      have := stride_pos code[i]
      blocksFrom code start (i + stride code[i])
  else if start < code.size then [⟨start, code.size⟩]
  else []
termination_by code.size - i

def blocks (code : Bytes) : List Block := blocksFrom code.toArray 0 0

def numbered (bs : List Block) (g : Twister) : List (Nat × Nat) :=
  (bs.map Block.start).zip (g.shuffle (List.range bs.length)).1

def pushNumber (n : Nat) : Bytes := Opcode.push.byte :: littleEndian 2 n

def dispatcher (states : List (Nat × Nat)) : Bytes :=
  pushNumber 0 ++ states.flatMap (fun e => pushNumber e.2) ++ [Opcode.finish.byte]

def flatten (code : Bytes) (seed : Int) : Bytes × List (Nat × Nat) :=
  let states := numbered (blocks code) (Twister.ofSeed seed)
  (dispatcher states, states)

/-! ## Hidden numbers -/

def hideState (state : Int) (g : Twister) : Nat × Twister :=
  let (key, g) := g.between 100 999
  let low := (state % 0x10000).toNat ^^^ key.toNat
  ((low + (state * 17 % 0x10000).toNat) % 0x10000, g)

def stateSlot : Nat := 0xFE

def transition (target : Int) (g : Twister) : Bytes × Twister :=
  let (n, g) := hideState target g
  (pushNumber n ++ Opcode.store.byte :: littleEndian 2 stateSlot, g)

/-! ## Dispatching -/

/-- What goes through the states of flattened code: the state at hand and those gone through, the
latest first. -/
structure Dispatcher where
  current : Int := 0
  history : List Int := []

namespace Dispatcher

def limit : Nat := 1000

/-- Goes through states until one is left; no state ever leads to another one. The answer says
whether the end was reached within the limit. -/
def go : (rounds : Nat) → Dispatcher → Bool × Dispatcher
  | 0, d => (false, d)
  | rounds + 1, d =>
    if d.current = -1 then (true, d) else go rounds { d with history := d.current :: d.history }

def run (d : Dispatcher) : Bool × Dispatcher := go (limit + 1 - d.history.length) { d with current := 0 }

def limitText : String := "Dispatcher loop limit exceeded"

end Dispatcher

end Birokrasi.Disguise
