import Birokrasi.Proofs.Agreement
import Birokrasi.Proofs.Building
import Birokrasi.Proofs.FileRoundTrip
import Birokrasi.Proofs.RunStates

/-!
# Runs of saved programs

A file holds the code and the pools of a program, but not the slots of its variables. When a program
that names its budget or its progress has been saved and loaded, the machine has these figures in other
slots than the code. The slots that have `Moved` are all that matters: a run that neither reads nor
writes one of them is the same before and after (`saved_run_eq_compiled`), and a program that prints its
budget is not (`saved_report_differs`).
-/

namespace Birokrasi.Machine

open Birokrasi.Bytecode
open Birokrasi.Structured (Program)
open Birokrasi.Text (Bytes)

/-- The slot of a figure where the slots of the program are known, or where they are not, but not in
both cases. -/
def Moved (slots : Table String Int) (id : Int) : Prop :=
  ∃ name ∈ ["anggaran", "progress"], ¬ (slotIn slots name = id ↔ slotIn [] name = id)

instance (slots : Table String Int) (id : Int) : Decidable (Moved slots id) :=
  inferInstanceAs (Decidable (∃ name ∈ ["anggaran", "progress"], _))

/-- The variable that a machine is going to read or to write. -/
def touched? (m : Machine) : Option Nat :=
  if m.byteAt? m.pc = some Opcode.load.byte ∨ m.byteAt? m.pc = some Opcode.store.byte then
    m.operandOf.toOption
  else none

/-- The variables that a run reads or writes. -/
def touched (delay : Value) (m : Machine) : List Nat := (m.begun delay).filterMap touched?

/-! ## Machines with and without slots -/

/-- Two machines that hold the same, but that the second one has no slots and may have other values in
variables that have moved. -/
def Stripped (slots : Table String Int) (m n : Machine) : Prop :=
  m.slots = slots ∧ ∃ table, n = { m with slots := [], «variables» := table } ∧
    ∀ id, ¬ Moved slots id → m.variables.get? id = Table.get? id table

/-- Two machines that have failed for the same reason. -/
def SameFailure (slots : Table String Int) (e e' : Failure) (m n : Machine) : Prop :=
  e = e' ∧ Stripped slots m n

section Stripped

variable {slots : Table String Int} {m n : Machine} {id : Int}

theorem budgetSlot_iff (h : ¬ Moved slots id) :
    slotIn slots "anggaran" = id ↔ slotIn [] "anggaran" = id :=
  Decidable.not_not.1 fun hne => h ⟨"anggaran", by simp, hne⟩

theorem progressSlot_iff (h : ¬ Moved slots id) :
    slotIn slots "progress" = id ↔ slotIn [] "progress" = id :=
  Decidable.not_not.1 fun hne => h ⟨"progress", by simp, hne⟩

theorem parallel_stripped : Parallel (SameFailure slots) (Stripped slots) where
  fails _ _ _ h := ⟨rfl, h⟩
  refuses _ _ _ h := by obtain ⟨hs, table, rfl, hv⟩ := h; exact ⟨rfl, hs, table, rfl, hv⟩
  outside _ _ h := by obtain ⟨hs, table, rfl, hv⟩ := h; exact ⟨rfl, hs, table, rfl, hv⟩
  stack h := by obtain ⟨-, table, rfl, -⟩ := h; rfl
  code h := by obtain ⟨-, table, rfl, -⟩ := h; rfl
  pc h := by obtain ⟨-, table, rfl, -⟩ := h; rfl
  constants h := by obtain ⟨-, table, rfl, -⟩ := h; rfl
  strings h := by obtain ⟨-, table, rfl, -⟩ := h; rfl
  restack _ h := by obtain ⟨hs, table, rfl, hv⟩ := h; exact ⟨hs, table, rfl, hv⟩
  reprint _ h := by obtain ⟨hs, table, rfl, hv⟩ := h; exact ⟨hs, table, rfl, hv⟩
  rewait _ h := by obtain ⟨hs, table, rfl, hv⟩ := h; exact ⟨hs, table, rfl, hv⟩
  repc _ h := by obtain ⟨hs, table, rfl, hv⟩ := h; exact ⟨hs, table, rfl, hv⟩

theorem Stripped.stored (h : Stripped slots m n) (hid : ¬ Moved slots id) (v : Value) :
    Stripped slots (m.stored id v) (n.stored id v) := by
  obtain ⟨rfl, table, rfl, hv⟩ := h
  refine ⟨rfl, table.put id v, ?_, fun other hother => ?_⟩
  · have hb : id = slotIn m.slots "anggaran" ↔ id = slotIn [] "anggaran" :=
      eq_comm.trans ((budgetSlot_iff hid).trans eq_comm)
    have hp : id = slotIn m.slots "progress" ↔ id = slotIn [] "progress" :=
      eq_comm.trans ((progressSlot_iff hid).trans eq_comm)
    simp only [Machine.stored, budgetSlot, progressSlot, ne_eq, hb, hp]
    congr
  · show (m.variables.put id v).get? other = (table.put id v).get? other
    rw [Table.get?_put, Table.get?_put, hv other hother]

theorem Stripped.settled (h : Stripped slots m n) (amount : Int) (left : Value) :
    Stripped slots (m.settled amount left) (n.settled amount left) := by
  obtain ⟨rfl, table, rfl, hv⟩ := h
  refine ⟨rfl, table.put (slotIn [] "anggaran") left, rfl, fun other hother => ?_⟩
  -- Each machine writes to a slot of its own; both have moved, or they are the same.
  show (m.variables.put m.budgetSlot left).get? other = _
  rw [Table.get?_put, Table.get?_put, hv other hother]
  exact if_congr (budgetSlot_iff hother) rfl rfl

theorem Stripped.valueOf (h : Stripped slots m n) (hid : ¬ Moved slots id) :
    m.valueOf id = n.valueOf id := by
  obtain ⟨-, table, rfl, hv⟩ := h
  rw [Machine.valueOf, Machine.valueOf, hv id hid]

theorem Stripped.figures (h : Stripped slots m n) :
    m.budget = n.budget ∧ m.progress = n.progress ∧ m.embezzled = n.embezzled := by
  obtain ⟨-, table, rfl, -⟩ := h
  exact ⟨rfl, rfl, rfl⟩

/-! ## Runs -/

/-- Both machines do the same in a round that touches no variable that has moved. -/
theorem matched_round_stripped (delay : Value) (h : Stripped slots m n)
    (hid : ∀ id ∈ m.touched?, ¬ Moved slots id) :
    Matched (SameFailure slots) (Stripped slots) (perform (round delay) m)
      (perform (round delay) n) := by
  refine parallel_stripped.matched_round delay (fun m n h => ?_) (fun m n h => ?_)
    (fun m n h b => ?_) h fun b hb h' => ?_
  · obtain ⟨hs, table, rfl, hv⟩ := h
    exact ⟨hs, table, rfl, hv⟩
  · obtain ⟨-, table, rfl, -⟩ := h
    rfl
  · obtain ⟨-, table, rfl, -⟩ := h
    rfl
  · -- The byte that is executed is the one found before the round was announced, and so is its operand.
    refine parallel_stripped.matched_execute h' b.toNat fun op hop hord => ?_
    have hbyte := eq_byte_of_opcode? hop
    have hmoved (hrw : op = .load ∨ op = .store) {id : Nat}
        (ho : (m.announced b).operandOf = .ok id) : ¬ Moved slots id := by
      refine hid id ?_
      rw [operandOf_announced] at ho
      rw [touched?, hb, hbyte, if_pos, ho]
      · rfl
      · rcases hrw with rfl | rfl
        · exact .inl rfl
        · exact .inr rfl
    cases op with
    | load =>
      exact parallel_stripped.matched_load h' fun id ho m' n' hR =>
        hR.valueOf (hmoved (.inl rfl) ho)
    | store =>
      exact parallel_stripped.matched_store h' fun id v ho m' n' hR =>
        hR.stored (hmoved (.inr rfl) ho) v
    | embezzle =>
      exact parallel_stripped.paired_embezzle (fun m' n' hR => hR.figures.1)
        (fun m' n' amount left hR _ => hR.settled amount left) _ _ h'
    | sleep => exact parallel_stripped.paired_sleep _ _ h'
    | _ => cases hord

end Stripped

/-- Two ends of runs with the same answer, output, figures and stack. -/
structure SameOutcome (x y : Bool × Machine) : Prop where
  answer : x.1 = y.1
  printed : x.2.printed = y.2.printed
  stack : x.2.stack = y.2.stack
  budget : x.2.budget = y.2.budget
  progress : x.2.progress = y.2.progress
  embezzled : x.2.embezzled = y.2.embezzled

variable {slots : Table String Int} {m n : Machine}

theorem sameOutcome_conclude {u v : Except Failure Unit × Machine}
    (h : Matched (SameFailure slots) (Stripped slots) u v) :
    SameOutcome (conclude u.1 u.2) (conclude v.1 v.2) := by
  cases h with
  | ok a h =>
    obtain ⟨-, table, rfl, -⟩ := h
    exact ⟨rfl, rfl, rfl, rfl, rfl, rfl⟩
  | error e e' h =>
    obtain ⟨rfl, -, table, rfl, -⟩ := h
    exact ⟨rfl, rfl, rfl, rfl, rfl, rfl⟩

theorem sameOutcome_run (delay : Value) (challenge : Bool) (h : Stripped slots m n)
    (hid : ∀ id ∈ m.touched delay, ¬ Moved slots id) :
    SameOutcome (run delay challenge m) (run delay challenge n) := by
  have hleft : n.roundsLeft = m.roundsLeft := by
    obtain ⟨-, table, rfl, -⟩ := h
    rfl
  have hdue (m n : Machine) (h : Stripped slots m n) :
      (course delay).due m = (course delay).due n := by
    obtain ⟨-, table, rfl, -⟩ := h
    rfl
  have hround : ∀ m' ∈ m.begun delay, ∀ n', Stripped slots m' n' →
      Matched (SameFailure slots) (Stripped slots) (perform (round delay) m')
        (perform (round delay) n') :=
    fun m' hm' n' h' => matched_round_stripped delay h' fun id ht =>
      hid id (List.mem_filterMap.2 ⟨m', hm', ht⟩)
  have hend := (Course.lockstep (c := course delay) (d := course delay) hdue m.roundsLeft hround h).1
  rw [← loop_eq_course, ← loop_eq_course] at hend
  rw [run, run, hleft]
  generalize loop delay m.roundsLeft m = u at hend
  generalize loop delay m.roundsLeft n = v at hend
  cases hend with
  | error e e' h => exact sameOutcome_conclude (.error (S := Stripped slots) e e' h)
  | ok a h =>
    cases challenge with
    | false => exact sameOutcome_conclude (.ok () h)
    | true =>
      exact sameOutcome_conclude
        (parallel_stripped.paired_awardFlag (fun _ _ h => h.figures) _ _ h)

/-! ## Files -/

variable {p : Program} {file : Bytes}

theorem storable_compile (h : (compile p).save = .ok file) : (compile p).Storable := by
  have hfits : (compile p).content.Fits :=
    fits_of_save ((compile p).save_eq_save_content.symm.trans h)
  refine ⟨hfits.code, by simpa [Image.content] using hfits.constants, fun v hv => ?_, hfits.strings,
    hfits.short⟩
  have hnumeral := (sound_instructions p).numerals v hv
  have hv := hfits.each _ (List.mem_map_of_mem hv)
  cases v with
  | int n => exact hv
  | float x => trivial
  | _ => exact hnumeral.elim

/-- A compiled program that can be saved loads again without its slots. -/
theorem load_of_save_compile (h : (compile p).save = .ok file) :
    Image.load file = .ok { compile p with slots := [], version := 3 } := by
  obtain ⟨file', hsave, hload⟩ := load_save_image (storable_compile h)
  obtain rfl := Except.ok.inj (h.symm.trans hsave)
  exact hload

theorem stripped_start (image : Image) (seed limit : Int) (traced : Bool) :
    Stripped image.slots (start .plain image seed limit traced)
      (start .plain { image with slots := [], version := 3 } seed limit traced) := by
  refine ⟨rfl, _, rfl, fun id hid => ?_⟩
  show Table.get? id (Table.put _ _ (Table.put _ _ [])) = Table.get? id (Table.put _ _ (Table.put _ _ []))
  rw [Table.get?_put, Table.get?_put, Table.get?_put, Table.get?_put]
  exact if_congr (progressSlot_iff hid) rfl (if_congr (budgetSlot_iff hid) rfl rfl)

/-- A compiled program that can be saved can be loaded. Whatever the seed and the step limit, its run
then has the same output, answer, figures and stack as before it was saved, if no variable is read or
written whose slot has moved. -/
theorem saved_run_eq_compiled (p : Program) {file : Bytes} (hsave : (compile p).save = .ok file) :
    ∃ loaded, Image.load file = .ok loaded ∧
      ∀ (seed limit : Int) (traced challenge : Bool) (delay : Value),
        (∀ id ∈ (start .plain (compile p) seed limit traced).touched delay,
          ¬ Moved (compile p).slots id) →
        SameOutcome (run delay challenge (start .plain (compile p) seed limit traced))
          (run delay challenge (start .plain loaded seed limit traced)) :=
  ⟨_, load_of_save_compile hsave, fun seed limit traced challenge delay hid =>
    sameOutcome_run delay challenge (stripped_start (compile p) seed limit traced) hid⟩

/-- Names its budget in a branch that is not taken. -/
def sparing : Program :=
  ⟨[.assign 1 "dana" "7", .branch 2 "0" [.report 3 "anggaran"] [], .report 5 "dana"]⟩

theorem saved_run_eq_compiled_sparing :
    ∃ file loaded, (compile sparing).save = .ok file ∧ Image.load file = .ok loaded ∧
      (∀ id ∈ (start .plain (compile sparing) 3 100 false).touched (.float 0.0),
        ¬ Moved (compile sparing).slots id) ∧
      SameOutcome (run (.float 0.0) true (start .plain (compile sparing) 3 100 false))
        (run (.float 0.0) true (start .plain loaded 3 100 false)) := by
  have hsome : (compile sparing).save.toOption.isSome = true := by decide +kernel
  have hid : ∀ id ∈ (start .plain (compile sparing) 3 100 false).touched (.float 0.0),
      ¬ Moved (compile sparing).slots id := by decide +kernel
  cases hsave : (compile sparing).save with
  | error e => simp [hsave, Except.toOption] at hsome
  | ok file =>
    obtain ⟨loaded, hload, hsame⟩ := saved_run_eq_compiled sparing hsave
    exact ⟨file, loaded, rfl, hload, hid, hsame 3 100 false true (.float 0.0) hid⟩

/-- Prints its budget. -/
def budgetReport : Program := ⟨[.report 1 "anggaran"]⟩

/-- A program that prints its budget prints zero after it has been saved and loaded. -/
theorem saved_report_differs :
    ∃ file loaded, (compile budgetReport).save = .ok file ∧ Image.load file = .ok loaded ∧
      (run (.float 0.0) false (start .plain (compile budgetReport) 1 100 false)).2.printed =
        #["100\n"] ∧
      (run (.float 0.0) false (start .plain loaded 1 100 false)).2.printed = #["0\n"] := by
  have hsome : (compile budgetReport).save.toOption.isSome = true := by decide +kernel
  cases hsave : (compile budgetReport).save with
  | error e => simp [hsave, Except.toOption] at hsome
  | ok file =>
    exact ⟨file, _, rfl, load_of_save_compile hsave, by decide +kernel, by decide +kernel⟩

end Birokrasi.Machine
