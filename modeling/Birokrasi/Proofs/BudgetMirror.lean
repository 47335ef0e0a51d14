import Birokrasi.Proofs.Agreement
import Birokrasi.Proofs.RunStates

/-!
# The budget and its slot

A machine holds its budget and its progress twice: as figures, and in the slots that programs see
them in. Two operations write them, each in its own way: a store (`stored`), and taking money
(`settled`), which writes all before it may fail. Both leave figures and slots equal if the two slots
differ, and so does every run of either machine (`figures_stand_in_slots`).
-/

namespace Birokrasi.Machine

open Birokrasi.Bytecode

/-- The figures of a machine stand in their slots. -/
structure Mirrored (m : Machine) : Prop where
  budget : m.variables.get? m.budgetSlot = some m.budget
  progress : m.variables.get? m.progressSlot = some m.progress

/-- The figures of a machine stand in two different slots. -/
structure Balanced (m : Machine) : Prop extends Mirrored m where
  apart : m.budgetSlot ≠ m.progressSlot

/-! ## Operations -/

theorem Balanced.stored {m : Machine} (h : Balanced m) (id : Int) (v : Value) :
    Balanced (m.stored id v) where
  budget := by
    show (m.variables.put id v).get? m.budgetSlot = some (if id = m.budgetSlot then v else m.budget)
    rw [Table.get?_put]
    split
    · rfl
    · exact h.budget
  progress := by
    show (m.variables.put id v).get? m.progressSlot =
      some (if id ≠ m.budgetSlot ∧ id = m.progressSlot then v else m.progress)
    rw [Table.get?_put]
    by_cases hp : id = m.progressSlot
    · -- The slot of the budget is asked for first, but it is another one.
      have hb : id ≠ m.budgetSlot := fun hb => h.apart (hb.symm.trans hp)
      rw [if_pos hp, if_pos ⟨hb, hp⟩]
    · rw [if_neg hp, if_neg fun hc => hp hc.2]
      exact h.progress
  apart := h.apart

theorem Balanced.settled {m : Machine} (h : Balanced m) (amount : Int) (left : Value) :
    Balanced (m.settled amount left) where
  budget := by
    show (m.variables.put m.budgetSlot left).get? m.budgetSlot = some left
    rw [Table.get?_put, if_pos rfl]
  progress := by
    show (m.variables.put m.budgetSlot left).get? m.progressSlot = some m.progress
    rw [Table.get?_put, if_neg h.apart]
    exact h.progress
  apart := h.apart

/-! ## Runs -/

theorem parallel_balanced : Parallel (fun _ _ => Same Balanced) (Same Balanced) :=
  parallel_same (fun _ h => { h with }) (fun _ h => { h with }) (fun _ h => { h with })
    (fun _ h => { h with })

theorem keeps_execute_balanced (code : Int) : Keeps Balanced (execute code) :=
  keeps_execute parallel_balanced (fun id v h => h.stored id v)
    (fun amount left h => h.settled amount left) code

theorem lasting_balanced : Lasting Balanced where
  recount _ h := { h with }
  reprint _ h := { h with }
  rewait _ h := { h with }
  recode _ h := { h with }
  redraw _ h := { h with }
  execute := keeps_execute_balanced

theorem balanced_start (edition : Edition) (image : Image) (seed limit : Int) (traced : Bool)
    (h : slotIn image.slots "anggaran" ≠ slotIn image.slots "progress") :
    Balanced (start edition image seed limit traced) where
  budget := by
    show Table.get? (slotIn image.slots "anggaran") (Table.put (slotIn image.slots "progress") _ _) = _
    rw [Table.get?_put, if_neg h.symm, Table.get?_put, if_pos rfl]
    rfl
  progress := by
    show Table.get? (slotIn image.slots "progress") (Table.put (slotIn image.slots "progress") _ _) = _
    rw [Table.get?_put, if_pos rfl]
    rfl
  apart := h

/-- If the slots of the budget and the progress differ, then the figures stand in them in every state
of every run of either machine, also after a failure, and when the run is over. -/
theorem figures_stand_in_slots (image : Image)
    (h : slotIn image.slots "anggaran" ≠ slotIn image.slots "progress") (seed limit : Int)
    (traced challenge : Bool) (delay : Value) :
    (∀ m ∈ (start .plain image seed limit traced).states delay, Mirrored m) ∧
    Mirrored (run delay challenge (start .plain image seed limit traced)).2 ∧
    ∀ (paranoia : Int) (hidden hell : Bool),
      (∀ g ∈ (Guarded.start image seed limit traced paranoia hidden).states delay hell,
        Mirrored g.core) ∧
      Mirrored (Guarded.run delay challenge hell
        (Guarded.start image seed limit traced paranoia hidden)).2.core := by
  have hplain := balanced_start .plain image seed limit traced h
  refine ⟨fun m hm => ?_, (lasting_balanced.run delay challenge hplain).toMirrored,
    fun paranoia hidden hell => ?_⟩
  · exact (lasting_balanced.forall_states delay hplain m hm).toMirrored
  · have hguarded : Balanced (Guarded.start image seed limit traced paranoia hidden).core :=
      balanced_start .guarded image seed limit traced h
    refine ⟨fun g hg => ?_, (lasting_balanced.guarded_run delay challenge hell hguarded).toMirrored⟩
    exact (lasting_balanced.forall_guarded_states delay hell hguarded g hg).toMirrored

/-- Sets its budget and its progress, and takes more money than there is. -/
def overdraft : Image where
  code :=
    [0x01, 0x00, 0x00, 0x04, 0x00, 0x00, 0x01, 0x01, 0x00, 0x04, 0x01, 0x00, 0x01, 0x01, 0x00, 0x60]
  constants := [.int 50, .int 200]
  slots := [("anggaran", 0), ("progress", 1)]

theorem figures_stand_in_slots_overdraft :
    slotIn overdraft.slots "anggaran" ≠ slotIn overdraft.slots "progress" ∧
    (∀ m ∈ (start .plain overdraft 7 100 true).states (.float 0.5), Mirrored m) ∧
    (∀ g ∈ (Guarded.start overdraft 7 100 true 2 false).states (.float 0.5) true,
      Mirrored g.core) := by
  have h : slotIn overdraft.slots "anggaran" ≠ slotIn overdraft.slots "progress" := by decide
  obtain ⟨hplain, -, hguarded⟩ := figures_stand_in_slots overdraft h 7 100 true false (.float 0.5)
  exact ⟨h, hplain, (hguarded 2 false true).1⟩

end Birokrasi.Machine
