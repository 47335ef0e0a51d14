import Birokrasi.Proofs.Agreement
import Birokrasi.Proofs.RunStates

/-!
# Conservation of money

What is taken from the budget is added to what has been embezzled. The amount is calculated in doubles,
of which it may be anything or nothing at all, but it has become an integer before the first figure is
written, and both figures change by it (`Accounted.settled`). The failure of an overdrawn budget comes
after both. So the figures make up the budget of the start as long as no program writes a budget of its
own, and they do so in every state of every run of either machine (`figures_make_up_budget`).

A run is held to the variables that it really writes. In a round of the guarded machine these are known
only when the shield and the ordeal have let the operation pass.
-/

namespace Birokrasi.Machine

open Birokrasi.Bytecode

/-- What is left and what has been taken are integers, and make up the budget of the start. -/
def Conserved (m : Machine) : Prop :=
  ∃ left : Int, m.budget = .int left ∧ left + m.embezzled = 100

/-! ## Variables that are written -/

/-- The variable that a machine is going to write. -/
def written? (m : Machine) : Option Nat :=
  if m.byteAt? m.pc = some Opcode.store.byte then m.operandOf.toOption else none

/-- The variables that a run writes. -/
def written (delay : Value) (m : Machine) : List Nat := (m.begun delay).filterMap written?

/-- The variable that a guarded machine is going to write. -/
def Guarded.written? (g : Guarded) : Option Nat :=
  match inspect.run.run g with
  | (.ok (some op), g') =>
    if op = Opcode.store.byte then g'.core.operandOf.toOption else none
  | _ => none

/-- The variables that a run of the guarded machine writes. -/
def Guarded.written (delay : Value) (hell : Bool) (g : Guarded) : List Nat :=
  ((Guarded.course delay).begun (g.prepare hell).core.roundsLeft (g.prepare hell)).filterMap
    Guarded.written?

/-! ## Operations -/

/-- The figures of a machine with these slots are accounted for. -/
def Accounted (slots : Table String Int) (m : Machine) : Prop := m.slots = slots ∧ Conserved m

section Operations

variable {slots : Table String Int} {m : Machine}

theorem sub_int (n amount : Int) :
    (Value.int n).sub (.int amount) = .ok (.int (n - amount)) := rfl

/-- Whatever the amount is, one figure loses what the other one gains. -/
theorem Accounted.settled (h : Accounted slots m) {amount : Int} {left : Value}
    (hleft : m.budget.sub (.int amount) = .ok left) : Accounted slots (m.settled amount left) := by
  obtain ⟨hslots, n, hbudget, hsum⟩ := h
  rw [hbudget, sub_int] at hleft
  cases hleft
  refine ⟨hslots, n - amount, rfl, ?_⟩
  show n - amount + (m.embezzled + amount) = 100
  omega

theorem Accounted.stored (h : Accounted slots m) {id : Int} (hid : id ≠ slotIn slots "anggaran")
    (v : Value) : Accounted slots (m.stored id v) := by
  obtain ⟨rfl, n, hbudget, hsum⟩ := h
  refine ⟨rfl, n, ?_, hsum⟩
  show (if id = m.budgetSlot then v else m.budget) = _
  rw [budgetSlot, if_neg hid, hbudget]

theorem parallel_accounted :
    Parallel (fun _ _ => Same (Accounted slots)) (Same (Accounted slots)) :=
  parallel_same (fun _ h => h) (fun _ h => h) (fun _ h => h) (fun _ h => h)

theorem aloof_accounted : Aloof (Accounted slots) where
  recount _ h := h
  reprint _ h := h
  rewait _ h := h
  recode _ h := h
  redraw _ h := h

/-- An operation keeps the account, unless it stores a value in the slot of the budget. -/
theorem Accounted.execute (h : Accounted slots m) (code : Int)
    (hstore : opcode? code = some .store → ∀ id, m.operandOf = .ok id →
      (id : Int) ≠ slotIn slots "anggaran") :
    Accounted slots (perform (execute code) m).2 := by
  have hself : Same (Accounted slots) m m := ⟨rfl, h⟩
  refine matched_same.1 (parallel_accounted.matched_execute hself code fun op hop hord => ?_)
  cases op with
  | load =>
    exact parallel_accounted.matched_load hself fun id _ m' n' h' => by rw [h'.1]
  | store =>
    exact parallel_accounted.matched_store hself fun id v hid m' n' h' =>
      ⟨by rw [h'.1], h'.2.stored (hstore hop id hid) v⟩
  | embezzle =>
    refine parallel_accounted.paired_embezzle (fun m' n' h' => by rw [h'.1]) ?_ m m hself
    exact fun m' n' amount left h' hleft => ⟨by rw [h'.1], h'.2.settled hleft⟩
  | sleep =>
    exact parallel_accounted.paired_sleep m m hself
  | _ => cases hord

end Operations

/-! ## Runs -/

section Runs

variable {slots : Table String Int} (delay : Value)

theorem Accounted.round {m : Machine} (h : Accounted slots m)
    (hw : ∀ id ∈ m.written?, (id : Int) ≠ slotIn slots "anggaran") :
    Accounted slots (perform (round delay) m).2 := by
  refine aloof_accounted.round delay h fun b hb => ?_
  refine (aloof_accounted.announced b h).execute b.toNat fun hop id hid => hw id ?_
  rw [operandOf_announced] at hid
  rw [written?, hb, eq_byte_of_opcode? hop, if_pos rfl, hid]
  rfl

theorem Accounted.guarded_round {g : Guarded} (h : Accounted slots g.core)
    (hw : ∀ id ∈ g.written?, (id : Int) ≠ slotIn slots "anggaran") :
    Accounted slots ((Guarded.round delay).run.run g).2.core := by
  refine aloof_accounted.guarded_round delay h fun op g' hinspect h' => ?_
  refine h'.execute op.toNat fun hop id hid => hw id ?_
  simp only [Guarded.written?, hinspect, eq_byte_of_opcode? hop, if_pos, hid]
  rfl

theorem forall_states_accounted {m : Machine} (h : Accounted slots m)
    (hw : ∀ id ∈ m.written delay, (id : Int) ≠ slotIn slots "anggaran") :
    ∀ m' ∈ m.states delay, Accounted slots m' := by
  refine Course.forall_states_of_begun (c := course delay) _ (fun m' hm' h' => ?_) h
  exact h'.round delay fun id hid => hw id (List.mem_filterMap.2 ⟨m', hm', hid⟩)

theorem forall_guarded_states_accounted (hell : Bool) {g : Guarded} (h : Accounted slots g.core)
    (hw : ∀ id ∈ g.written delay hell, (id : Int) ≠ slotIn slots "anggaran") :
    ∀ g' ∈ g.states delay hell, Accounted slots g'.core := by
  refine Course.forall_states_of_begun (c := Guarded.course delay)
    (P := fun g => Accounted slots g.core) _ (fun g' hg' h' => ?_) (aloof_accounted.prepare hell h)
  exact h'.guarded_round delay fun id hid => hw id (List.mem_filterMap.2 ⟨g', hg', hid⟩)

end Runs

theorem accounted_start (edition : Edition) (image : Image) (seed limit : Int) (traced : Bool) :
    Accounted image.slots (start edition image seed limit traced) :=
  ⟨rfl, 100, rfl, rfl⟩

/-- If a run never stores a value in the slot of the budget, then the budget and what has been
embezzled are integers that make up a hundred in all its states, also after a failure, and when it is
over. This holds of the plain machine and of the guarded one, whatever is taken. -/
theorem figures_make_up_budget (image : Image) (seed limit : Int) (traced challenge : Bool)
    (delay : Value) :
    ((∀ id ∈ (start .plain image seed limit traced).written delay,
        (id : Int) ≠ slotIn image.slots "anggaran") →
      (∀ m ∈ (start .plain image seed limit traced).states delay, Conserved m) ∧
      Conserved (run delay challenge (start .plain image seed limit traced)).2) ∧
    ∀ (paranoia : Int) (hidden hell : Bool),
      (∀ id ∈ (Guarded.start image seed limit traced paranoia hidden).written delay hell,
        (id : Int) ≠ slotIn image.slots "anggaran") →
      (∀ g ∈ (Guarded.start image seed limit traced paranoia hidden).states delay hell,
        Conserved g.core) ∧
      Conserved (Guarded.run delay challenge hell
        (Guarded.start image seed limit traced paranoia hidden)).2.core := by
  refine ⟨fun hw => ?_, fun paranoia hidden hell hw => ?_⟩
  · have hstates := forall_states_accounted delay
      (accounted_start .plain image seed limit traced) hw
    exact ⟨fun m hm => (hstates m hm).2, (aloof_accounted.run delay challenge hstates).2⟩
  · have hguarded : Accounted image.slots
        (Guarded.start image seed limit traced paranoia hidden).core :=
      accounted_start .guarded image seed limit traced
    have hstates := forall_guarded_states_accounted delay hell hguarded hw
    exact ⟨fun g hg => (hstates g hg).2,
      (aloof_accounted.guarded_run delay challenge hell hstates).2⟩

/-- Stores a value in another slot, and takes a negative share, half a percent of which gets lost. -/
def rebate : Image where
  code := [0x01, 0x00, 0x00, 0x04, 0x05, 0x00, 0x01, 0x01, 0x00, 0x60]
  constants := [.int 300, .float (-50.5)]
  slots := [("anggaran", 0)]

theorem figures_make_up_budget_rebate :
    (∀ id ∈ (start .plain rebate 7 4 false).written (.float 0.0),
      (id : Int) ≠ slotIn rebate.slots "anggaran") ∧
    (∀ m ∈ (start .plain rebate 7 4 false).states (.float 0.0), Conserved m) ∧
    (∀ id ∈ (Guarded.start rebate 7 4 false 0 false).written (.float 0.0) false,
      (id : Int) ≠ slotIn rebate.slots "anggaran") ∧
    (∀ g ∈ (Guarded.start rebate 7 4 false 0 false).states (.float 0.0) false,
      Conserved g.core) := by
  have hfive {w : Option Nat} (h : w = none ∨ w = some 5) {id : Nat} (hid : w = some id) :
      (id : Int) ≠ slotIn rebate.slots "anggaran" := by
    rcases h with rfl | rfl
    · cases hid
    · cases hid
      decide
  -- The last round, which draws, is left out of the evaluation: it begins where the first three lead to.
  have hplain : ∀ id ∈ (start .plain rebate 7 4 false).written (.float 0.0),
      (id : Int) ≠ slotIn rebate.slots "anggaran" := by
    have hbegun : ∀ m ∈ (course (.float 0.0)).begun 4 (start .plain rebate 7 4 false),
        m.written? = none ∨ m.written? = some 5 :=
      Course.forall_begun_succ 3 (by decide +kernel) (by decide +kernel)
    intro id hid
    obtain ⟨m, hm, hw⟩ := List.mem_filterMap.1 hid
    exact hfive (hbegun m hm) hw
  have hguarded : ∀ id ∈ (Guarded.start rebate 7 4 false 0 false).written (.float 0.0) false,
      (id : Int) ≠ slotIn rebate.slots "anggaran" := by
    have hbegun : ∀ g ∈ (Guarded.course (.float 0.0)).begun 4
        ((Guarded.start rebate 7 4 false 0 false).prepare false),
        g.written? = none ∨ g.written? = some 5 :=
      Course.forall_begun_succ 3 (by decide +kernel) (by decide +kernel)
    intro id hid
    obtain ⟨g, hg, hw⟩ := List.mem_filterMap.1 hid
    exact hfive (hbegun g hg) hw
  obtain ⟨hp, hg⟩ := figures_make_up_budget rebate 7 4 false false (.float 0.0)
  exact ⟨hplain, (hp hplain).1, hguarded, (hg 0 false false hguarded).1⟩

end Birokrasi.Machine
