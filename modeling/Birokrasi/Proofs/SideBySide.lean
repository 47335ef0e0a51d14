import Birokrasi.Proofs.Agreement

/-!
# Machines side by side

Two machines that hold the same but stand at different places of different code (`Alike`) do the same
at the same operation (`exists_agree_effect`): both fail, or both go on and hold the same again. What
they draw, count and call their edition plays no part, as long as no money is taken and nobody waits.
-/

namespace Birokrasi.Machine

open Birokrasi.Bytecode

/-- Where two machines stand, each in its code. -/
structure Places where
  code : Array UInt8
  code' : Array UInt8
  pc : Int
  pc' : Int

namespace Places

/-- Both go on by so many bytes. -/
def on (x : Places) (size : Int) : Places := { x with pc := x.pc + size, pc' := x.pc' + size }

/-- Each goes to an address of its own. -/
def jump (x : Places) (pc pc' : Int) : Places := { x with pc, pc' }

end Places

/-- Two machines at their places that hold the same. -/
structure Alike (x : Places) (m n : Machine) : Prop where
  code : m.code = x.code
  code' : n.code = x.code'
  pc : m.pc = x.pc
  pc' : n.pc = x.pc'
  traced : m.traced = false
  traced' : n.traced = false
  constants : m.constants = n.constants
  strings : m.strings = n.strings
  slots : m.slots = n.slots
  stack : m.stack = n.stack
  values : m.variables = n.variables
  budget : m.budget = n.budget
  progress : m.progress = n.progress
  embezzled : m.embezzled = n.embezzled
  printed : m.printed = n.printed

theorem Alike.counted {x : Places} {m n : Machine} (h : Alike x m n) :
    Alike x m.counted n.counted :=
  { h with }

/-- Two outcomes that are the same, but for the reason of a failure, with machines that are alike; at
the places `y`, if there was no failure. -/
abbrev Agree {α : Type} (y : Places) :
    Except Failure α × Machine → Except Failure α × Machine → Prop :=
  Matched (fun _ _ m n => ∃ z, Alike z m n) (Alike y)

/-- Machines that are alike at `x` agree on these actions, which lead to `y`. -/
abbrev Twin {α : Type} (x y : Places) (r s : Run α) : Prop :=
  Paired (fun _ _ m n => ∃ z, Alike z m n) (Alike x) (Alike y) r s

/-! ## Actions -/

section Actions

variable {x : Places}

theorem steady_alike (x : Places) : Steady (fun _ _ m n => ∃ z, Alike z m n) (Alike x) where
  fails _ _ _ hx := ⟨x, hx⟩
  refuses _ _ _ hx := ⟨x, hx⟩
  stack hx := hx.stack
  restack _ hx := { hx with stack := rfl }
  reprint _ hx := { hx with printed := by simp [hx.printed] }

theorem twin_skip (size : Int) : Twin x (x.on size) (skip size) (skip size) :=
  .modify fun _ _ hx =>
    { hx with pc := congrArg (· + size) hx.pc, pc' := congrArg (· + size) hx.pc' }

theorem twin_goto (pc pc' : Int) : Twin x (x.jump pc pc') (goto pc) (goto pc') :=
  .modify fun _ _ hx => { hx with pc := rfl, pc' := rfl }

theorem Alike.stored {m n : Machine} (hx : Alike x m n) (id : Int) (v : Value) :
    Alike x (m.stored id v) (n.stored id v) := by
  have hb : m.budgetSlot = n.budgetSlot := congrArg (slotIn · _) hx.slots
  have hp : m.progressSlot = n.progressSlot := congrArg (slotIn · _) hx.slots
  exact { hx with
    values := by rw [Machine.stored, Machine.stored, hx.values]
    budget := by simp only [Machine.stored, hb, hx.budget]
    progress := by simp only [Machine.stored, hb, hp, hx.progress] }

end Actions

/-! ## Operands -/

section Operands

variable {α : Type} {x y : Places} {k k' : Nat}

/-- Machines at these places find these operands. -/
def Reads (x : Places) (k k' : Nat) : Prop :=
  ∀ m n : Machine, Alike x m n → perform operand m = (.ok k, m) ∧ perform operand n = (.ok k', n)

theorem Twin.operand {f g : Nat → Run α} (h : Reads x k k') (hf : Twin x y (f k) (g k')) :
    Twin x y (operand >>= f) (operand >>= g) := by
  intro m n hx
  obtain ⟨hm, hn⟩ := h m n hx
  rw [perform_bind_of_ok f hm, perform_bind_of_ok g hn]
  exact hf m n hx

theorem twin_pushPooled (h : Reads x k k) : Twin x (x.on 3) pushPooled pushPooled := by
  refine Twin.operand h (.look (fun m n hx => ?_) fun m => ?_)
  · rw [hx.strings, hx.constants]
  · simp only
    split
    · exact ((steady_alike x).paired_push _).bind fun _ => twin_skip 3
    · exact .bind (S := Alike x) (.throw fun _ _ hx => ⟨x, hx⟩) fun _ => twin_skip 3

theorem twin_loadVariable (h : Reads x k k) : Twin x (x.on 3) loadVariable loadVariable := by
  refine Twin.operand h (.look (fun m n hx => ?_) fun m => ?_)
  · rw [hx.values]
  · exact ((steady_alike x).paired_push _).bind fun _ => twin_skip 3

theorem twin_storeVariable (h : Reads x k k) : Twin x (x.on 3) storeVariable storeVariable := by
  refine Twin.operand h ((steady_alike x).paired_pop.bind fun v m n hx => ?_)
  rw [perform_assign, perform_assign]
  exact twin_skip 3 _ _ (hx.stored k v)

/-- A conditional jump goes on or to its target. -/
theorem exists_agree_jumpIfFalse {P : Places → Prop} (h : Reads x k k') (hon : P (x.on 3))
    (hto : P (x.jump k k')) {m n : Machine} (hx : Alike x m n) :
    ∃ y, P y ∧ Agree y (perform (effect .jumpIfFalse) m) (perform (effect .jumpIfFalse) n) := by
  obtain ⟨hm, hn⟩ := h m n hx
  cases hs : m.stack with
  | nil =>
    refine ⟨x.on 3, hon, ?_⟩
    have hm' : perform (effect .jumpIfFalse) m = (.error (.fault .emptyPop), m) :=
      (perform_bind_of_ok _ hm).trans (perform_bind_of_error _ (perform_pop_nil hs))
    have hn' : perform (effect .jumpIfFalse) n = (.error (.fault .emptyPop), n) :=
      (perform_bind_of_ok _ hn).trans (perform_bind_of_error _ (perform_pop_nil (hx.stack ▸ hs)))
    rw [hm', hn']
    exact .error _ _ ⟨x, hx⟩
  | cons v rest =>
    rw [perform_jumpIfFalse hm hs, perform_jumpIfFalse hn (hx.stack ▸ hs), hx.pc, hx.pc']
    cases v.truthy with
    | true => exact ⟨x.on 3, hon, .ok () { hx with pc := rfl, pc' := rfl, stack := rfl }⟩
    | false => exact ⟨x.jump k k', hto, .ok () { hx with pc := rfl, pc' := rfl, stack := rfl }⟩

end Operands

/-! ## Operations -/

/-- The number of bytes of an operation with its operand. -/
def width (op : Opcode) : Nat := if carriesOperand op then 3 else 1

/-- Whether an operation may lead to its operand. -/
def jumps (op : Opcode) : Prop := op = .jump ∨ op = .jumpIfFalse

/-- The operations that have nothing to do with chance and time. -/
def Sober (op : Opcode) : Prop := op ≠ .embezzle ∧ op ≠ .meeting ∧ op ≠ .sleep

instance (op : Opcode) : Decidable (Sober op) :=
  inferInstanceAs (Decidable (op ≠ .embezzle ∧ op ≠ .meeting ∧ op ≠ .sleep))

/-- Machines that are alike at an operation agree on what it does: they go on behind it, or to its
targets. -/
theorem exists_agree_effect {P : Places → Prop} {x : Places} {k k' : Nat} {op : Opcode}
    (hop : Sober op) (hend : op ≠ .finish) (hread : carriesOperand op → Reads x k k')
    (hsame : ¬ jumps op → k = k') (hon : P (x.on (width op))) (hto : jumps op → P (x.jump k k'))
    {m n : Machine} (hx : Alike x m n) :
    ∃ y, P y ∧ Agree y (perform (effect op) m) (perform (effect op) n) := by
  have straight (h : Twin x (x.on (width op)) (effect op) (effect op)) :
      ∃ y, P y ∧ Agree y (perform (effect op) m) (perform (effect op) n) :=
    ⟨_, hon, h m n hx⟩
  cases op with
  | push => exact straight (twin_pushPooled (hsame (by simp [jumps]) ▸ hread rfl))
  | load => exact straight (twin_loadVariable (hsame (by simp [jumps]) ▸ hread rfl))
  | store => exact straight (twin_storeVariable (hsame (by simp [jumps]) ▸ hread rfl))
  | jump => exact ⟨_, hto (.inl rfl), Twin.operand (hread rfl) (twin_goto k k') m n hx⟩
  | jumpIfFalse => exact exists_agree_jumpIfFalse (hread rfl) hon (hto (.inr rfl)) hx
  | nop | pop | print | add | sub | mul | div | eq | lt | gt | stall =>
    exact straight ((steady_alike x).paired_onStack (twin_skip 1) rfl)
  | mod | call | ret => exact straight ((steady_alike x).paired_refuse _)
  | embezzle => exact absurd rfl hop.1
  | meeting => exact absurd rfl hop.2.1
  | sleep => exact absurd rfl hop.2.2
  | finish => exact absurd rfl hend

theorem execute_byte (op : Opcode) :
    execute op.byte.toNat = (do effect op; return decide (op ≠ .finish)) := by
  simp [execute, opcode?_byte]

/-- Where machines go that are alike at an operation and go on. -/
theorem exists_agree_execute {P : Places → Prop} {x : Places} {k k' : Nat} {op : Opcode}
    (hop : Sober op) (hread : carriesOperand op → Reads x k k')
    (hsame : ¬ jumps op → k = k') (hon : P (x.on (width op))) (hto : jumps op → P (x.jump k k'))
    {m n : Machine} (hx : Alike x m n) :
    ∃ y, ((perform (execute op.byte.toNat) m).1 = .ok true → P y) ∧
      Agree y (perform (execute op.byte.toNat) m) (perform (execute op.byte.toNat) n) := by
  rw [execute_byte]
  by_cases hend : op = .finish
  · subst hend
    exact ⟨x, nofun, .ok false hx⟩
  · obtain ⟨y, hy, hagree⟩ := exists_agree_effect hop hend hread hsame hon hto hx
    exact ⟨y, fun _ => hy, matched_bind hagree fun _ _ => .pure _⟩

/-- The flag is awarded to both machines or to none. -/
theorem twin_awardFlag {x : Places} : Twin x x awardFlag awardFlag :=
  (steady_alike x).paired_awardFlag fun _ _ hx => ⟨hx.budget, hx.progress, hx.embezzled⟩

end Birokrasi.Machine
