import Birokrasi.Machine.Guarded
import Birokrasi.Proofs.Stepping

/-!
# Rounds of the guarded machine

But for the one that waits, the operations of the guarded machine are those of the plain one
(`execute_eq`). A guarded machine that is not anxious, not traced and not in an ordeal (`Quiet`) does in
a round what its operation does in the machine inside (`run_round`), and is quiet again. Its shield only
draws, and its mutator changes nothing as long as no money is taken.
-/

namespace Birokrasi.Machine.Guarded

open Birokrasi.Bytecode
open Birokrasi.Disguise (Mapping)
open Birokrasi.Guard (Shield Snapshot)

variable {g : Guarded} {m : Option Mapping} {c : UInt8}

/-- A guarded machine whose guard has no cause to act. -/
structure Quiet (m : Option Mapping) (g : Guarded) : Prop where
  mapping : g.mapping = m
  ordeal : g.ordeal = none
  calm : g.shield.calm = true
  relaxed : g.shield.watch.paranoia ≤ 1
  untraced : g.core.traced = false

/-! ## Operations -/

/-- But for the one that waits, operations have the effect that they have in the plain machine. -/
theorem effect_eq {op : Opcode} (hop : op ≠ .sleep) : effect op = Machine.effect op := by
  cases op with
  | sleep => exact absurd rfl hop
  | _ => rfl

theorem execute_eq {code : Int} (hcode : opcode? code ≠ some .sleep) :
    execute code = Machine.execute code := by
  unfold execute Machine.execute
  cases hop : opcode? code with
  | none => rfl
  | some op =>
    have heffect := effect_eq fun h : op = .sleep => hcode (hop.trans (congrArg some h))
    simp only [heffect]

theorem execute_byte_eq {op : Opcode} (hop : op ≠ .sleep) :
    execute op.byte.toNat = Machine.execute op.byte.toNat :=
  execute_eq fun h => hop (Option.some.inj ((opcode?_byte op).symm.trans h))

/-- The operation that waits is none of the guarded machine. -/
theorem perform_execute_sleep (n : Machine) :
    perform (execute Opcode.sleep.byte.toNat) n =
      (.error (.unknownOpcode Opcode.sleep.byte.toNat n.pc), n) := by
  simp only [execute, opcode?_byte]
  rfl

/-- What an operation keeps in the plain machine, it keeps in the guarded one. -/
theorem after_execute {P : Machine → Prop} {code : Int} {n : Machine} (hn : P n)
    (h : P (perform (Machine.execute code) n).2) : P (perform (execute code) n).2 := by
  by_cases hcode : opcode? code = some .sleep
  · unfold execute
    simp only [hcode]
    exact hn
  · rw [execute_eq hcode]
    exact h

theorem keeps_execute {P : Machine → Prop} {code : Int} (h : Keeps P (Machine.execute code)) :
    Keeps P (execute code) :=
  fun n hn => after_execute hn (h n hn)

/-! ## The guard -/

theorem run_onCore {α : Type} (r : Run α) (g : Guarded) :
    (onCore r).run.run g = ((perform r g.core).1, { g with core := (perform r g.core).2 }) := by
  refine (run_get_bind _ _).trans ?_
  generalize perform r g.core = outcome
  obtain ⟨a | e, core⟩ := outcome <;> rfl

/-- Whether a decoy is wanted can always be told, and a draw is all that it takes. -/
theorem run_wantsDecoy {state : Snapshot} {traced : Bool} {steps : Int}
    (hd : state "debug_mode" = some (.bool traced)) (hs : state "step_count" = some (.int steps))
    (s : Shield) :
    ∃ wanted rng, (Shield.calculate (s.wantsDecoy state)).run.run (s, []) =
      (.ok (wanted, { s with rng }), s, []) := by
  have hdebug (v : Value) : state.getD "debug_mode" v = .bool traced := by
    rw [Snapshot.getD, hd]
    rfl
  have hless : (state.getD "step_count" (.int 0)).less (.int 100) =
      .ok (Value.Comparison.less.holds (compare steps 100)) := by
    rw [Snapshot.getD, hs]
    exact ordered_int .less steps 100
  obtain ⟨wanted, rng, hw⟩ : ∃ wanted rng, s.wantsDecoy state = .ok (wanted, { s with rng }) := by
    simp only [Shield.wantsDecoy, hdebug, hless, ok_bind]
    split
    · exact ⟨true, s.rng, rfl⟩
    · split
      · exact ⟨_, s.rng.unit.2, rfl⟩
      · exact ⟨false, s.rng, rfl⟩
  refine ⟨wanted, rng, ?_⟩
  rw [hw]
  rfl

/-- A shield that is not anxious draws at most, if there is no debugger. -/
theorem run_onOperation {s : Shield} {state : Snapshot} {steps : Int} (op : Int)
    (hr : s.watch.paranoia ≤ 1) (hd : state "debug_mode" = some (.bool false))
    (hs : state "step_count" = some (.int steps)) :
    ∃ rng, (Shield.onOperation op state).run.run (s, []) = (.ok (), { s with rng }, []) := by
  have hanxious : ¬ 2 ≤ s.watch.paranoia := by omega
  have hdebug : (state.getD "debug_mode" .none).truthy = false := by
    rw [Snapshot.getD, hd]
    rfl
  obtain ⟨wanted, rng, hcalc⟩ := run_wantsDecoy hd hs s
  by_cases halert : 1 ≤ s.watch.paranoia
  · refine ⟨rng, ?_⟩
    refine (run_get_bind _ _).trans ?_
    rw [if_neg hanxious]
    refine (run_get_bind _ _).trans ?_
    rw [if_pos halert]
    refine (run_get_bind _ _).trans ?_
    refine (run_bind_of_ok _ hcalc).trans ?_
    refine (run_set_bind _ _ _).trans ?_
    rw [hdebug, Bool.and_false, if_neg Bool.false_ne_true]
    rfl
  · refine ⟨s.rng, ?_⟩
    refine (run_get_bind _ _).trans ?_
    rw [if_neg hanxious]
    refine (run_get_bind _ _).trans ?_
    rw [if_neg halert]
    rfl

theorem run_consultShield (hq : Quiet m g) (op : UInt8) :
    ∃ rng, (consultShield op).run.run g = (.ok (), { g with shield := { g.shield with rng } }) := by
  have hd : g.snapshot "debug_mode" = some (.bool false) := by
    simp [snapshot, hq.untraced]
  have hs : g.snapshot "step_count" = some (.int g.core.steps) := by
    simp [snapshot]
  obtain ⟨rng, hrun⟩ := run_onOperation op.toNat hq.relaxed hd hs
  refine ⟨rng, ?_⟩
  refine (run_get_bind _ _).trans ?_
  rw [hrun]
  rfl

theorem run_consultOrdeal (hq : Quiet m g) : consultOrdeal.run.run g = (.ok (), g) := by
  refine (run_get_bind _ _).trans ?_
  rw [hq.ordeal]
  rfl

theorem run_consultMutator (g : Guarded) (hc : c ≠ Opcode.embezzle.byte) :
    (consultMutator c).run.run g = (.ok (), g) := by
  have hne : (c.toNat : Int) ≠ Opcode.embezzle.byte.toNat := fun h =>
    hc (UInt8.toNat_inj.1 (Int.ofNat_inj.1 h))
  have hsame : g.mutator.afterOperation g.core.code g.core.pc c.toNat =
      .ok (g.core.code, g.mutator) := by
    simp [Disguise.Mutator.afterOperation, hne]
    rfl
  refine (run_get_bind _ _).trans ?_
  rw [hsame]
  rfl

/-! ## Rounds -/

theorem run_operate (g : Guarded) (ht : g.core.traced = false) (hc : c ≠ Opcode.embezzle.byte) :
    (operate (.float 0.0) c).run.run g =
      ((perform (execute c.toNat) g.core).1,
        { g with core := (perform (execute c.toNat) g.core).2 }) := by
  refine (run_get_bind _ _).trans ?_
  rw [ht, if_neg Bool.false_ne_true]
  have hexec := run_onCore (execute c.toNat) g
  generalize perform (execute c.toNat) g.core = outcome at hexec
  obtain ⟨e | more, core⟩ := outcome
  · exact run_bind_of_error _ hexec
  · refine (run_bind_of_ok _ hexec).trans ?_
    cases more with
    | false => rfl
    | true =>
      have hdelay := run_onCore (calculate ((Value.float 0.0).greater (.int 0))) { g with core }
      rw [perform_calculate no_delay] at hdelay
      refine (run_get_bind _ _).trans ?_
      split
      · refine (run_bind_of_ok _ (run_consultMutator _ hc)).trans ?_
        exact (run_bind_of_ok _ hdelay).trans rfl
      · exact (run_bind_of_ok _ hdelay).trans rfl

/-- The part of a round that follows when the shield is calm. -/
def proceed (delay : Value) (address : Int) : Act Bool := do
  let b ← onCore (fetch address)
  let op := (← get).reveal b
  modify fun g => { g with history := g.history.push op }
  consultShield op
  consultOrdeal
  operate delay op

theorem run_round_of_calm (delay : Value) (h : g.shield.calm = true) :
    (round delay).run.run g =
      (proceed delay g.core.pc).run.run { g with core := g.core.counted } := by
  refine (run_modify_bind _ _ _).trans ?_
  refine (run_get_bind _ _).trans ?_
  rw [h, Bool.not_true, if_neg Bool.false_ne_true]
  rfl

/-- In a round, a quiet machine does what the operation that it finds does. -/
theorem run_round {b : UInt8} (hq : Quiet m g)
    (hb : perform (fetch g.core.pc) g.core.counted = (.ok b, g.core.counted))
    (hr : g.reveal b = c) (hc : c ≠ Opcode.embezzle.byte) :
    ∃ g', (round (.float 0.0)).run.run g = ((perform (execute c.toNat) g.core.counted).1, g') ∧
      g'.core = (perform (execute c.toNat) g.core.counted).2 ∧
      (g'.core.traced = false → Quiet m g') := by
  let counted : Guarded := { g with core := g.core.counted }
  let noted : Guarded := { counted with history := g.history.push c }
  have hq' : Quiet m noted := ⟨hq.mapping, hq.ordeal, hq.calm, hq.relaxed, hq.untraced⟩
  obtain ⟨rng, hshield⟩ := run_consultShield hq' c
  let drawn : Guarded := { noted with shield := { g.shield with rng } }
  have hordeal : consultOrdeal.run.run drawn = (.ok (), drawn) :=
    run_consultOrdeal (m := m) ⟨hq.mapping, hq.ordeal, hq.calm, hq.relaxed, hq.untraced⟩
  have hfetch : (onCore (fetch g.core.pc)).run.run counted = (.ok b, counted) := by
    rw [run_onCore, hb]
  have hlast := run_operate drawn hq.untraced hc
  rw [show drawn.core = g.core.counted from rfl] at hlast
  generalize perform (execute c.toNat) g.core.counted = outcome at hlast
  refine ⟨{ drawn with core := outcome.2 }, ?_, rfl,
    fun ht => ⟨hq.mapping, hq.ordeal, hq.calm, hq.relaxed, ht⟩⟩
  refine (run_round_of_calm _ hq.calm).trans ?_
  refine (run_bind_of_ok _ hfetch).trans ?_
  refine (run_get_bind _ counted).trans ?_
  rw [show counted.reveal b = c from hr]
  refine (run_modify_bind _ _ counted).trans ?_
  refine (run_bind_of_ok _ hshield).trans ?_
  refine (run_bind_of_ok _ hordeal).trans ?_
  exact hlast

/-- Where the plain machine waits, a quiet machine fails, and its state is the one it was in. -/
theorem run_round_sleep {b : UInt8} (hq : Quiet m g)
    (hb : perform (fetch g.core.pc) g.core.counted = (.ok b, g.core.counted))
    (hr : g.reveal b = Opcode.sleep.byte) :
    ∃ g', (round (.float 0.0)).run.run g =
        (.error (.unknownOpcode Opcode.sleep.byte.toNat g.core.pc), g') ∧
      g'.core = g.core.counted := by
  obtain ⟨g', hround, hcore, -⟩ := run_round hq hb hr (by decide)
  rw [perform_execute_sleep] at hround hcore
  exact ⟨g', hround, hcore⟩

/-- Behind the end of the code there is no operation to be found. -/
theorem run_round_of_error {e : Failure} (hq : Quiet m g)
    (hb : perform (fetch g.core.pc) g.core.counted = (.error e, g.core.counted)) :
    (round (.float 0.0)).run.run g = (.error e, { g with core := g.core.counted }) := by
  refine (run_round_of_calm _ hq.calm).trans (run_bind_of_error _ ?_)
  rw [run_onCore, hb]

/-- From `g` the machine gets to `g'` in `k` rounds, without a delay. -/
def ReachesIn (k : Nat) (g g' : Guarded) : Prop :=
  ∀ rounds, loop (.float 0.0) (k + rounds) g = loop (.float 0.0) rounds g'

theorem ReachesIn.refl (g : Guarded) : ReachesIn 0 g g := fun rounds => by rw [Nat.zero_add]

theorem ReachesIn.trans {k k' : Nat} {g g' g'' : Guarded} (h : ReachesIn k g g')
    (h' : ReachesIn k' g' g'') : ReachesIn (k + k') g g'' :=
  fun rounds => by rw [Nat.add_assoc, h, h']

theorem ReachesIn.one {g' : Guarded} (hlt : g.core.pc < g.core.code.size)
    (h : (round (.float 0.0)).run.run g = (.ok true, g')) : ReachesIn 1 g g' :=
  fun rounds => by rw [Nat.add_comm, loop, if_pos hlt, h]

theorem loop_of_end (h : ¬ g.core.pc < g.core.code.size) (rounds : Nat) :
    loop (.float 0.0) rounds g = (.ok (), g) := by
  cases rounds with
  | zero => rfl
  | succ rounds => rw [loop, if_neg h]

end Birokrasi.Machine.Guarded
