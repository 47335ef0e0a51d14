import Birokrasi.Proofs.Agreement
import Birokrasi.Proofs.RunStates

/-!
# Where operations lead

An operation goes on behind itself by its `stride`, or `leaps` to the address that is its operand,
as its kind and the stack decide. The machine is at this `destination` afterwards, and where it was
if the operation fails (`ends_effect`). So the address never gets below zero
(`keeps_execute_forward`).
-/

namespace Birokrasi.Machine

open Birokrasi.Bytecode

variable {m m' : Machine}

/-- By how many bytes an operation goes on. -/
def stride : Opcode → Nat
  | .push | .load | .store | .jump | .jumpIfFalse | .meeting => 3
  | .finish => 0
  | _ => 1

/-- Whether an operation reads its operand. -/
def reads : Opcode → Bool
  | .push | .load | .store | .jump | .jumpIfFalse | .meeting => true
  | _ => false

theorem stride_eq {op : Opcode} (h : op ≠ .finish) : stride op = if reads op then 3 else 1 := by
  cases op <;> first | rfl | contradiction

/-- Whether an operation leads to the address that is its operand. -/
def leaps : Opcode → List Value → Bool
  | .jump, _ => true
  | .jumpIfFalse, v :: _ => !v.truthy
  | .meeting, count :: _ => (count.greater (.int 1)).toOption.getD false
  | _, _ => false

theorem reads_of_leaps {op : Opcode} {stack : List Value} (h : leaps op stack) : reads op := by
  cases op <;> first | rfl | cases h

/-- The address that an operation leads to. -/
def destination (op : Opcode) (m : Machine) : Int :=
  if leaps op m.stack then (m.operandOf.toOption.getD 0 : Nat) else m.pc + stride op

/-! ## Bytes -/

theorem byteAt?_natCast (m : Machine) (i : Nat) : m.byteAt? i = m.code[i]? := by
  rw [byteAt?, place?_natCast]
  by_cases hlt : i < m.code.size
  · rw [if_pos hlt, Option.bind_some]
  · rw [if_neg hlt, Option.bind_none, Array.getElem?_eq_none (Nat.not_lt.1 hlt)]

/-- The operation at hand. -/
def atHand (m : Machine) : Option Opcode := (m.byteAt? m.pc).bind Opcode.ofByte?

/-- The number that two bytes behind a place stand for; one that is cut off is zero. -/
def numberAt (code : Array UInt8) (a : Nat) : Nat :=
  match code[a + 1]?, code[a + 2]? with
  | some low, some high => low.toNat + 256 * high.toNat
  | _, _ => 0

theorem operandOf_eq {a : Nat} (h : m.pc = a) : m.operandOf = .ok (numberAt m.code a) := by
  have hlow : m.byteAt? (m.pc + 1) = m.code[a + 1]? := by
    rw [h]
    exact byteAt?_natCast m (a + 1)
  have hhigh : m.byteAt? (m.pc + 2) = m.code[a + 2]? := by
    rw [h]
    exact byteAt?_natCast m (a + 2)
  unfold operandOf numberAt
  by_cases hcut : (m.code.size : Int) ≤ m.pc + 2
  · have hnone : m.code[a + 2]? = none := by
      rw [Array.getElem?_eq_none_iff]
      omega
    rw [if_pos hcut, hnone]
    cases m.code[a + 1]? <;> rfl
  · have hlt : a + 2 < m.code.size := by omega
    rw [if_neg hcut, hlow, hhigh, Array.getElem?_eq_getElem hlt,
      Array.getElem?_eq_getElem (Nat.lt_of_succ_lt hlt)]

/-! ## Straight operations -/

section Straight

variable {α : Type} {P : Machine → Prop} {a : Int}

theorem leads_of_keeps {x : Run α} (h : Keeps P x) : Leads P P (fun _ => P) x := by
  intro m hm
  have hafter := h m hm
  generalize x.run.run m = outcome at hafter
  obtain ⟨e | a, m'⟩ := outcome <;> exact hafter

/-- The machine stands at this address. -/
def At (a : Int) (m : Machine) : Prop := m.pc = a

/-- The action goes on by so many bytes, unless it fails. -/
def Straight (size : Int) (x : Run α) : Prop := ∀ a, Leads (At a) (At (a + size)) (fun _ => At a) x

theorem straight_skip (size : Int) : Straight size (skip size) :=
  fun _ => .modify fun _ h => congrArg (· + size) h

theorem Straight.after {β : Type} {size : Int} {x : Run β} {f : β → Run α}
    (hx : ∀ a, Keeps (At a) x) (hf : ∀ b, Straight size (f b)) : Straight size (x >>= f) :=
  fun a => (leads_of_keeps (hx a)).bind fun b => hf b a

theorem Straight.get {size : Int} {f : Machine → Run α} (hf : ∀ m, Straight size (f m)) :
    Straight size (get >>= f) :=
  fun a => .get fun m _ => hf m a

theorem Straight.ite {size : Int} {c : Prop} [Decidable c] {x y : Run α} (hx : Straight size x)
    (hy : Straight size y) : Straight size (if c then x else y) :=
  fun a => .ite (hx a) (hy a)

theorem Straight.throw {size : Int} (e : Failure) : Straight size (throw e : Run α) :=
  fun _ => .throw fun _ h => h

theorem keeps_operand : Keeps P operand :=
  .get fun _ _ => .ite (.pure 0)
    ((keeps_fetch _).bind fun _ => (keeps_fetch _).bind fun _ => .pure _)

theorem keeps_pop_at : Keeps (At a) pop := by
  refine .get fun m _ => ?_
  split
  · exact .throw _
  · exact .bind (.modify fun _ h => h) fun _ => .pure _

theorem keeps_push_at (v : Value) : Keeps (At a) (push v) := .modify fun _ h => h

theorem keeps_print_at (line : String) : Keeps (At a) (print line) := .modify fun _ h => h

theorem straight_binary {f : Value → Value → Run Value} (hf : ∀ a b c, Keeps (At c) (f a b)) :
    Straight 1 (binary f) :=
  .after (fun _ => keeps_pop_at) fun b => .after (fun _ => keeps_pop_at) fun a =>
    .after (hf a b) fun v => .after (fun _ => keeps_push_at v) fun _ => straight_skip 1

theorem straight_refuse {size : Int} (code : Int) : Straight size (refuse code) :=
  .get fun _ => .throw _

theorem straight_embezzle : Straight 1 embezzle := by
  refine .after (fun _ => keeps_pop_at) fun percent => ?_
  refine .get fun m => .after (fun _ => keeps_calculate _) fun amount => ?_
  refine .get fun m => .after (fun _ => keeps_calculate _) fun left => ?_
  intro a m hm
  show Ends _ _ (perform (settle amount left) m)
  rw [perform_settle]
  have hrest : Straight 1 (do
      if (← calculate (left.less (.int 0))) then throw .audited
      skip 1) := by
    refine .after (fun _ => keeps_calculate _) fun short => .ite ?_ (straight_skip 1)
    exact .after (fun _ => .throw _) fun _ => straight_skip 1
  exact hrest a (m.settled amount left) hm

end Straight

/-- The operations that never leap go on by their stride. -/
theorem straight_effect {op : Opcode} (h : op ≠ .jump ∧ op ≠ .jumpIfFalse ∧ op ≠ .meeting) :
    Straight (stride op) (effect op) := by
  cases op with
  | nop => exact straight_skip 1
  | push =>
    refine .after (fun _ => keeps_operand) fun n => .get fun m => ?_
    dsimp only
    split
    · exact .after (fun _ => keeps_push_at _) fun _ => straight_skip 3
    · exact .after (fun _ => .throw _) fun _ => straight_skip 3
  | pop => exact .after (fun _ => keeps_pop_at) fun _ => straight_skip 1
  | load =>
    exact .after (fun _ => keeps_operand) fun n => .get fun m =>
      .after (fun _ => keeps_push_at _) fun _ => straight_skip 3
  | store =>
    refine .after (fun _ => keeps_operand) fun n => .after (fun _ => keeps_pop_at) fun v => ?_
    refine .after (fun _ => .modify fun _ h => h) fun _ => ?_
    refine .after (fun _ => .modify fun m h => ?_) fun _ => straight_skip 3
    split
    · exact h
    · split <;> exact h
  | print =>
    exact .after (fun _ => keeps_pop_at) fun v => .after (fun _ => keeps_print_at _) fun _ =>
      straight_skip 1
  | add | sub | mul => exact straight_binary fun _ _ _ => keeps_calculate _
  | div =>
    refine straight_binary fun a b c => .ite (.bind (.throw _) fun _ => ?_) ?_
    · split <;> exact keeps_calculate _
    · split <;> exact keeps_calculate _
  | eq => exact straight_binary fun _ _ _ => .pure _
  | lt | gt => exact straight_binary fun _ _ _ => (keeps_calculate _).bind fun _ => .pure _
  | embezzle => exact straight_embezzle
  | stall =>
    exact .after (fun _ => keeps_pop_at) fun v => .after (fun _ => keeps_print_at _) fun _ => .throw _
  | sleep =>
    refine .after (fun _ => keeps_pop_at) fun time => .after (fun _ => keeps_calculate _) fun v => ?_
    refine .after (fun _ => ?_) fun _ => straight_skip 1
    exact (keeps_calculate _).bind fun _ => .modify fun _ h => h
  | finish => exact fun a m h => h.trans (Int.add_zero a).symm
  | mod | call | ret => exact straight_refuse _
  | jump => exact absurd rfl h.1
  | jumpIfFalse => exact absurd rfl h.2.1
  | meeting => exact absurd rfl h.2.2

/-! ## Destinations -/

/-- A machine that stands where `m` does, in front of the same operand. -/
structure Here (m m' : Machine) : Prop where
  pc : m'.pc = m.pc
  operand : m'.operandOf = m.operandOf

theorem leads_leap (m : Machine) :
    Leads (Here m) (At (m.operandOf.toOption.getD 0 : Nat)) (fun _ => At m.pc)
      (do goto (← operand)) := by
  intro m' hm'
  have hoperand := perform_operand m'
  rw [hm'.operand] at hoperand
  cases hk : m.operandOf with
  | error e =>
    rw [hk] at hoperand
    rw [run_bind_of_error _ hoperand]
    exact hm'.pc
  | ok k =>
    rw [hk] at hoperand
    rw [run_bind_of_ok _ hoperand]
    rfl

theorem ends_jump (m : Machine) :
    Ends (At (destination .jump m)) (fun _ => At m.pc) (perform (effect .jump) m) :=
  leads_leap m m ⟨rfl, rfl⟩

theorem ends_jumpIfFalse (m : Machine) :
    Ends (At (destination .jumpIfFalse m)) (fun _ => At m.pc) (perform (effect .jumpIfFalse) m) := by
  have hoperand := perform_operand m
  cases hk : m.operandOf with
  | error e =>
    rw [hk] at hoperand
    rw [effect, jumpIfFalse, perform_bind_of_error _ hoperand]
    rfl
  | ok k =>
    rw [hk] at hoperand
    cases hs : m.stack with
    | nil =>
      rw [effect, jumpIfFalse, perform_bind_of_ok _ hoperand,
        perform_bind_of_error _ (perform_pop_nil hs)]
      rfl
    | cons v rest =>
      rw [perform_jumpIfFalse hoperand hs]
      show (if v.truthy then m.pc + 3 else (k : Int)) = destination .jumpIfFalse m
      cases hv : v.truthy <;> simp [destination, leaps, hs, hv, hk, Except.toOption, stride]

theorem leads_calculate_here {α : Type} (m : Machine) (r : Except Fault α) :
    Leads (Here m) (Here m) (fun _ => At m.pc) (calculate r) :=
  (leads_of_keeps (keeps_calculate r)).imp_error fun _ _ h => h.pc

theorem ends_meeting (m : Machine) :
    Ends (At (destination .meeting m)) (fun _ => At m.pc) (perform (effect .meeting) m) := by
  cases hs : m.stack with
  | nil =>
    have hskip : perform (effect .meeting) m = perform (skip 3) m := by
      refine (perform_bind_of_ok _ (r := get) rfl).trans ?_
      simp only [hs]
    rw [hskip, destination, hs]
    rfl
  | cons count rest =>
    have hmeet : perform (effect .meeting) m = perform (do
        if (← calculate (count.greater (.int 1))) then
          let left ← calculate (count.sub (.int 1))
          modify fun m => { m with stack := left :: rest }
          goto (← operand)
        else
          let _ ← pop
          skip 3) m := by
      refine (perform_bind_of_ok _ (r := get) rfl).trans ?_
      simp only [hs]
    cases hmore : count.greater (.int 1) with
    | error f =>
      rw [hmeet, hmore]
      rfl
    | ok more =>
      cases more with
      | false =>
        rw [perform_meet_over hs hmore]
        show m.pc + 3 = destination .meeting m
        simp [destination, leaps, hs, hmore, Except.toOption, stride]
      | true =>
        have hleaps : destination .meeting m = (m.operandOf.toOption.getD 0 : Nat) := by
          simp [destination, leaps, hs, hmore, Except.toOption]
        rw [hmeet, perform_bind_of_ok _ (perform_calculate hmore), if_pos rfl, hleaps]
        refine Leads.bind (leads_calculate_here m _) (fun left => ?_) m ⟨rfl, rfl⟩
        exact .bind (Q := Here m) (.modify fun _ h => ⟨h.pc, h.operand⟩) fun _ => leads_leap m

/-- An operation leads to its destination, unless it fails. -/
theorem ends_effect (op : Opcode) (m : Machine) :
    Ends (At (destination op m)) (fun _ => At m.pc) (perform (effect op) m) := by
  have hstraight (h : op ≠ .jump ∧ op ≠ .jumpIfFalse ∧ op ≠ .meeting) :
      Ends (At (destination op m)) (fun _ => At m.pc) (perform (effect op) m) := by
    have hleaps : leaps op m.stack = false := by
      obtain ⟨hjump, hfalse, hmeeting⟩ := h
      cases op <;> first | rfl | contradiction
    rw [destination, hleaps]
    exact straight_effect h m.pc m rfl
  cases op with
  | jump => exact ends_jump m
  | jumpIfFalse => exact ends_jumpIfFalse m
  | meeting => exact ends_meeting m
  | _ => exact hstraight ⟨by decide, by decide, by decide⟩

theorem pc_of_effect {op : Opcode} {u : Unit} (h : perform (effect op) m = (.ok u, m')) :
    m'.pc = destination op m := by
  have hends := ends_effect op m
  rw [h] at hends
  exact hends

theorem pc_of_execute {op : Opcode} {more : Bool}
    (h : perform (execute op.byte.toNat) m = (.ok more, m')) : m'.pc = destination op m := by
  simp only [execute, opcode?_byte] at h
  obtain ⟨u, m₁, hrun, hreturn⟩ := run_bind_eq_ok.1 h
  have heq : m₁ = m' := congrArg Prod.snd hreturn
  rw [← heq]
  exact pc_of_effect hrun

/-- The address is not below zero. -/
def Forward (m : Machine) : Prop := 0 ≤ m.pc

theorem byteAt?_of_forward {m : Machine} (h : Forward m) : m.byteAt? m.pc = m.code[m.pc.toNat]? := by
  rw [← byteAt?_natCast, Int.toNat_of_nonneg h]

theorem keeps_effect_forward (op : Opcode) : Keeps Forward (effect op) := by
  intro m (hm : 0 ≤ m.pc)
  refine ((ends_effect op m).imp (fun m' h => ?_) fun _ m' h => ?_).state
  · have hdestination : 0 ≤ destination op m := by
      unfold destination
      split
      · exact Int.natCast_nonneg _
      · omega
    show 0 ≤ m'.pc
    rw [show m'.pc = _ from h]
    exact hdestination
  · show 0 ≤ m'.pc
    rw [show m'.pc = _ from h]
    exact hm

theorem keeps_execute_forward (code : Int) : Keeps Forward (execute code) := by
  unfold execute
  split
  · exact (keeps_effect_forward _).bind fun _ => .pure _
  · exact .bind (.get fun _ _ => .throw _) fun _ => .pure _

end Birokrasi.Machine
