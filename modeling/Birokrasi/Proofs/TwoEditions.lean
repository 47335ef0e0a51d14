import Birokrasi.Proofs.DisguisedRuns
import Birokrasi.Proofs.RunStates

/-!
# Both editions run alike

As long as no money is taken and nobody waits, the editions of the machine do the same at every
operation, whatever the code is made of: they differ in what they say when they fail, and in nothing
else that they hold. A guarded machine that is quiet does round by round what the plain machine does
(`matched_round`), so that both go through the same states and come to the same end
(`guarded_states_eq_plain`). Where the plain machine waits, it fails (`Guarded.run_round_sleep`).
-/

namespace Birokrasi.Machine

open Birokrasi.Bytecode
open Birokrasi.Disguise (SameEnd seen sameEnd_run)

/-- A machine of another edition that holds the same. -/
def reissued (edition : Edition) (m : Machine) : Machine := { m with edition }

/-- The second machine is the first one, which is not traced, in another edition. -/
def Reissue (edition : Edition) (m n : Machine) : Prop :=
  n = m.reissued edition ∧ m.traced = false

/-! ## Operations -/

section Operations

variable {edition : Edition} {m n : Machine}

theorem parallel_reissue : Parallel (fun _ _ => Reissue edition) (Reissue edition) where
  fails _ _ _ h := h
  refuses _ _ _ h := h
  outside _ _ h := h
  stack h := by rw [h.1]; rfl
  code h := by rw [h.1]; rfl
  pc h := by rw [h.1]; rfl
  constants h := by rw [h.1]; rfl
  strings h := by rw [h.1]; rfl
  restack _ h := ⟨by rw [h.1]; rfl, h.2⟩
  reprint _ h := ⟨by rw [h.1]; rfl, h.2⟩
  rewait _ h := ⟨by rw [h.1]; rfl, h.2⟩
  repc _ h := ⟨by rw [h.1]; rfl, h.2⟩

theorem matched_execute_reissue (h : Reissue edition m n) {b : UInt8}
    (hk : b ≠ Opcode.embezzle.byte) (hs : b ≠ Opcode.sleep.byte) :
    Matched (fun _ _ => Reissue edition) (Reissue edition) (perform (execute b.toNat) m)
      (perform (execute b.toNat) n) := by
  refine parallel_reissue.matched_execute h b.toNat fun op hop hord => ?_
  have hb := eq_byte_of_opcode? hop
  cases op with
  | load =>
    exact parallel_reissue.matched_load h fun id _ m' n' h' => by rw [h'.1]; rfl
  | store =>
    exact parallel_reissue.matched_store h fun id v _ m' n' h' => ⟨by rw [h'.1]; rfl, h'.2⟩
  | embezzle => exact absurd hb hk
  | sleep => exact absurd hb hs
  | _ => cases hord

end Operations

/-! ## Rounds -/

/-- A quiet guarded machine with the plain machine inside, but for the edition. -/
def Contains (m : Machine) (g : Guarded) : Prop :=
  Reissue .guarded m g.core ∧ g.Quiet none

variable {m : Machine} {g : Guarded}

theorem matched_round (h : Contains m g) (hk : m.byteAt? m.pc ≠ some Opcode.embezzle.byte)
    (hs : m.byteAt? m.pc ≠ some Opcode.sleep.byte) :
    Matched (fun _ _ => Contains) Contains (perform (round (.float 0.0)) m)
      ((Guarded.round (.float 0.0)).run.run g) := by
  obtain ⟨hcore, hq⟩ := h
  have hcounted : Reissue .guarded m.counted g.core.counted := ⟨by rw [hcore.1]; rfl, hcore.2⟩
  have hpc : g.core.pc = m.pc := (parallel_reissue.pc hcore).symm
  have hbyte (a : Int) : g.core.counted.byteAt? a = m.counted.byteAt? a :=
    (parallel_reissue.byteAt?_eq hcounted a).symm
  cases hb : m.byteAt? m.pc with
  | none =>
    have hm : m.counted.byteAt? m.pc = none := hb
    have hg : g.core.counted.byteAt? g.core.pc = none := by rw [hbyte, hpc, hm]
    rw [perform_round_of_error _ (perform_fetch_none hm),
      Guarded.run_round_of_error hq (perform_fetch_none hg)]
    exact .error _ _ ⟨hcounted, { hq with }⟩
  | some b =>
    have hm : m.counted.byteAt? m.pc = some b := hb
    have hg : g.core.counted.byteAt? g.core.pc = some b := by rw [hbyte, hpc, hm]
    rw [hb] at hk hs
    have hk' : b ≠ Opcode.embezzle.byte := fun h => hk (congrArg some h)
    have hs' : b ≠ Opcode.sleep.byte := fun h => hs (congrArg some h)
    have hreveal : g.reveal b = b := by rw [Guarded.reveal, hq.mapping]
    obtain ⟨g', hround, hcore', hquiet⟩ := Guarded.run_round hq (perform_fetch hg) hreveal hk'
    have hexecute : Guarded.execute b.toNat = execute b.toNat :=
      Guarded.execute_eq fun h => hs' (eq_byte_of_opcode? h)
    rw [hexecute] at hround hcore'
    rw [perform_round hcore.2 (perform_fetch hm), hround]
    have hmatch := matched_execute_reissue hcounted hk' hs'
    generalize perform (execute b.toNat) m.counted = u at hmatch
    generalize perform (execute b.toNat) g.core.counted = v at hmatch hcore'
    have hcontains {m' : Machine} (h : Reissue .guarded m' g'.core) : Contains m' g' :=
      ⟨h, hquiet (by rw [h.1]; exact h.2)⟩
    cases hmatch with
    | ok a h => exact .ok a (hcontains (hcore' ▸ h))
    | error e e' h => exact .error e e' (hcontains (hcore' ▸ h))

/-! ## Runs -/

theorem contains_start (image : Image) (seed limit : Int) {paranoia : Int} (hp : paranoia ≤ 1) :
    Contains (start .plain image seed limit false)
      ((Guarded.start image seed limit false paranoia false).prepare false) :=
  ⟨⟨rfl, rfl⟩, ⟨rfl, rfl, rfl, hp, rfl⟩⟩

theorem Contains.alike (h : Contains m g) : Alike ⟨m.code, m.code, m.pc, m.pc⟩ m g.core := by
  rw [h.1.1]
  exact ⟨rfl, rfl, rfl, rfl, h.1.2, h.1.2, rfl, rfl, rfl, rfl, rfl, rfl, rfl, rfl, rfl⟩

theorem exists_agree {u : Except Failure Unit × Machine} {v : Except Failure Unit × Guarded}
    (h : Matched (fun _ _ => Contains) Contains u v) : ∃ y, Agree y u (v.1, v.2.core) := by
  refine ⟨⟨u.2.code, u.2.code, u.2.pc, u.2.pc⟩, ?_⟩
  cases h with
  | ok a h => exact .ok a h.alike
  | error e e' h => exact .error e e' ⟨_, h.alike⟩

/-- For all code, seeds and step limits: if the plain machine takes no money and does not wait in its
run, then a guarded machine that is not anxious and hides nothing goes through the same states, which
differ in no more than the edition, and comes to the same end. Only the text of a final error may
differ. -/
theorem guarded_states_eq_plain (image : Image) (seed limit : Int) {paranoia : Int}
    (hp : paranoia ≤ 1) (challenge : Bool)
    (hk : Opcode.embezzle.byte ∉ (start .plain image seed limit false).executed (.float 0.0))
    (hs : Opcode.sleep.byte ∉ (start .plain image seed limit false).executed (.float 0.0)) :
    ((Guarded.start image seed limit false paranoia false).states (.float 0.0) false).map
        Guarded.core =
      ((start .plain image seed limit false).states (.float 0.0)).map (reissued .guarded) ∧
    SameEnd (run (.float 0.0) challenge (start .plain image seed limit false))
      (seen (Guarded.run (.float 0.0) challenge false
        (Guarded.start image seed limit false paranoia false))) := by
  let m := start .plain image seed limit false
  let g := (Guarded.start image seed limit false paranoia false).prepare false
  have hround : ∀ m' ∈ m.begun (.float 0.0), ∀ g', Contains m' g' →
      Matched (fun _ _ => Contains) Contains (perform (round (.float 0.0)) m')
        ((Guarded.round (.float 0.0)).run.run g') := by
    intro m' hm' g' h
    refine matched_round h (fun hb => hk ?_) fun hb => hs ?_
    · exact List.mem_filterMap.2 ⟨m', hm', hb⟩
    · exact List.mem_filterMap.2 ⟨m', hm', hb⟩
  have hdue (m' : Machine) (g' : Guarded) (h : Contains m' g') :
      (course (.float 0.0)).due m' = (Guarded.course (.float 0.0)).due g' := by
    simp only [course, Guarded.course, parallel_reissue.pc h.1, parallel_reissue.code h.1]
  obtain ⟨hend, hbegun⟩ := Course.lockstep (c := course (.float 0.0))
    (d := Guarded.course (.float 0.0)) hdue m.roundsLeft hround
    (contains_start image seed limit hp)
  constructor
  · have hstates := Course.lockstep_states m.roundsLeft hend hbegun
    rw [← List.forall₂_eq_eq_eq, List.forall₂_map_left_iff, List.forall₂_map_right_iff]
    exact (List.Forall₂.imp (fun m' g' h => h.1.1) hstates).flip
  · rw [← loop_eq_course, ← Guarded.loop_eq_course] at hend
    obtain ⟨y, hagree⟩ := exists_agree hend
    exact sameEnd_run challenge rfl hagree

/-- Prints a text in three rounds of a meeting, and ends at an operation that no edition knows, behind
which an operand is cut off. -/
def brokenMeeting : Image where
  code := [0x01, 0x00, 0x00, 0x01, 0x00, 0x80, 0x10, 0x62, 0x03, 0x00, 0x24, 0x01, 0x00]
  constants := [.int 3]
  strings := ["rapat"]

theorem guarded_states_eq_plain_brokenMeeting :
    Opcode.embezzle.byte ∉ (start .plain brokenMeeting 5 100 false).executed (.float 0.0) ∧
    Opcode.sleep.byte ∉ (start .plain brokenMeeting 5 100 false).executed (.float 0.0) ∧
    ((Guarded.start brokenMeeting 5 100 false 1 false).states (.float 0.0) false).map
        Guarded.core =
      ((start .plain brokenMeeting 5 100 false).states (.float 0.0)).map (reissued .guarded) ∧
    SameEnd (run (.float 0.0) true (start .plain brokenMeeting 5 100 false))
      (seen (Guarded.run (.float 0.0) true false
        (Guarded.start brokenMeeting 5 100 false 1 false))) := by
  have hk : Opcode.embezzle.byte ∉
      (start .plain brokenMeeting 5 100 false).executed (.float 0.0) := by decide +kernel
  have hs : Opcode.sleep.byte ∉
      (start .plain brokenMeeting 5 100 false).executed (.float 0.0) := by decide +kernel
  exact ⟨hk, hs, guarded_states_eq_plain brokenMeeting 5 100 (by decide) true hk hs⟩

end Birokrasi.Machine
