import Mathlib.Algebra.Order.BigOperators.Group.Finset
import Birokrasi.Proofs.Inspections

/-!
# Runs behind a shield

An anxious shield counts operations, and is alarmed by one that comes for the 1001st time
(`Analyst.Tallies`). It is looked at before the next operation is fetched, so no operation is executed
more often in a run, however many steps the run may take, and the round that finds the shield alarmed
ends the run. A shield that is not anxious counts nothing and never stands in the way
(`shield_bounds_run`).
-/

namespace Birokrasi.Guard.Analyst

variable {a : Analyst} {ops : List UInt8}

/-- An analyst that has noted these operations, none of them after it was alarmed. -/
structure Tallies (a : Analyst) (ops : List UInt8) : Prop where
  counts : ∀ op : UInt8, (a.counts.get? (op.toNat : Int)).getD 0 = ops.count op
  detected : a.detected = true ↔ ∃ op, limit < ops.count op
  bounded : ∀ op, ops.count op ≤ limit + 1

theorem tallies_nil : Tallies {} [] where
  counts op := by simp
  detected := by simp
  bounded op := by simp

/-- One more operation can come before the alarm, since none has come too often yet. -/
theorem Tallies.note (h : Tallies a ops) (hcalm : a.detected = false) (op : UInt8) :
    Tallies (a.note op.toNat).2 (ops ++ [op]) := by
  have hfew (other : UInt8) : ops.count other ≤ limit := by
    by_contra hmany
    have := h.detected.2 ⟨other, by omega⟩
    simp [hcalm] at this
  have hcount (other : UInt8) : (ops ++ [op]).count other = ops.count other + if op = other then 1 else 0 := by
    rw [List.count_append, List.count_singleton]
    simp only [beq_iff_eq]
  have hsame (other : UInt8) : ((op.toNat : Int) = other.toNat) ↔ op = other := by
    rw [Int.ofNat_inj, UInt8.toNat_inj]
  have hcounts (other : UInt8) :
      ((a.counts.put (op.toNat : Int) (ops.count op + 1)).get? (other.toNat : Int)).getD 0 =
        (ops ++ [op]).count other := by
    rw [Table.get?_put, hcount]
    simp only [hsame]
    split
    next heq => rw [← heq, Option.getD_some]
    next => rw [h.counts, Nat.add_zero]
  have hbounded (other : UInt8) : (ops ++ [op]).count other ≤ limit + 1 := by
    have := hfew other
    rw [hcount]
    split <;> omega
  have hdetected : (∃ other, limit < (ops ++ [op]).count other) ↔ limit < ops.count op + 1 := by
    constructor
    · rintro ⟨other, hmany⟩
      have := hfew other
      rw [hcount] at hmany
      split at hmany
      next heq => rwa [heq]
      next => omega
    · intro hmany
      exact ⟨op, by rwa [hcount, if_pos rfl]⟩
  unfold Analyst.note
  simp only [h.counts]
  split
  next hmany => exact ⟨hcounts, ⟨fun _ => hdetected.2 hmany, fun _ => rfl⟩, hbounded⟩
  next hfew =>
    refine ⟨hcounts, ⟨fun hd => ?_, fun hd => absurd (hdetected.1 hd) hfew⟩, hbounded⟩
    simp [hcalm] at hd

end Birokrasi.Guard.Analyst

namespace Birokrasi.Machine.Guarded

open Birokrasi.Bytecode (Opcode)

variable {delay : Value} {hell : Bool} {paranoia : Int} {g : Guarded}

/-! ## Rounds -/

/-- A machine whose shield knows its history, if it is anxious, and nothing otherwise. -/
structure Watched (paranoia : Int) (g : Guarded) : Prop where
  level : g.shield.watch.paranoia = paranoia
  undetected : g.shield.watch.detected = false
  anxious : 2 ≤ paranoia → g.shield.analyst.Tallies g.history.toList
  relaxed : paranoia ≤ 1 → g.shield.analyst.detected = false

theorem Watched.calm_iff (h : Watched paranoia g) :
    g.shield.calm = true ↔ g.shield.analyst.detected = false := by
  simp [Guard.Shield.calm, h.undetected]

theorem Watched.passed {op : UInt8} {g' : Guarded} (h : Watched paranoia g)
    (hcalm : g.shield.calm = true) (hpassed : Passed op g g') : Watched paranoia g' where
  level := by rw [hpassed.watch, h.level]
  undetected := by rw [hpassed.watch, h.undetected]
  anxious hp := by
    rw [hpassed.analyst, hpassed.history, Guard.Shield.noted, h.level, if_pos hp,
      Array.toList_push]
    exact (h.anxious hp).note (h.calm_iff.1 hcalm) op
  relaxed hp := by
    rw [hpassed.analyst, Guard.Shield.noted, h.level, if_neg (by omega)]
    exact h.relaxed hp

theorem Watched.after_inspect (h : Watched paranoia g) : Watched paranoia (inspect.run.run g).2 := by
  have hend := inspection h.undetected
  generalize inspect.run.run g = outcome at hend
  cases hend with
  | refused | left | missing => exact { h with }
  | passed hcalm hb hpassed => exact h.passed hcalm hpassed
  | failed hcalm hordeal hb hpassed f => exact h.passed hcalm hpassed

theorem Watched.after_round (h : Watched paranoia g) (delay : Value) :
    Watched paranoia ((round delay).run.run g).2 := by
  rw [round_eq_inspect]
  exact Keeps.after h.after_inspect
    (keeps_fulfil (fun _ _ hg => { hg with }) (fun _ _ hg => { hg with }) delay)

/-- A round notes the operation that it executes, and at most one that is not executed any more. -/
theorem Watched.history_round (h : Watched paranoia g) (delay : Value) :
    ∃ ops, ((round delay).run.run g).2.history.toList = g.history.toList ++ ops ∧
      g.operation?.toList.Sublist ops := by
  have hinspect : ∃ ops, (inspect.run.run g).2.history.toList = g.history.toList ++ ops ∧
      g.operation?.toList.Sublist ops := by
    have hend := inspection h.undetected
    unfold operation?
    generalize inspect.run.run g = outcome at hend
    cases hend with
    | refused | left | missing => exact ⟨[], (List.append_nil _).symm, .slnil⟩
    | passed hcalm hb hpassed =>
      exact ⟨[_], by rw [hpassed.history, Array.toList_push], .refl _⟩
    | failed hcalm hordeal hb hpassed f =>
      exact ⟨[_], by rw [hpassed.history, Array.toList_push], List.nil_sublist _⟩
  obtain ⟨ops, hhistory, hsub⟩ := hinspect
  refine ⟨ops, ?_, hsub⟩
  rw [round_eq_inspect]
  exact Keeps.after (P := fun g' : Guarded => g'.history.toList = g.history.toList ++ ops) hhistory
    (keeps_fulfil (fun _ _ hg => hg) (fun _ _ hg => hg) delay)

/-- A round that finds the shield alarmed ends the run. -/
theorem run_round_of_alarm (h : g.shield.calm = false) (hanxious : 2 ≤ g.shield.watch.paranoia)
    (delay : Value) : (round delay).run.run g = (.error .shielded, g.warned) := by
  have hinspect := run_inspect_of_alarm h
  rw [if_pos hanxious] at hinspect
  rw [round_eq_inspect, run_bind_of_error _ hinspect]

/-! ## Runs -/

/-- The states in which a run of the guarded machine begins its rounds. -/
def begun (delay : Value) (hell : Bool) (g : Guarded) : List Guarded :=
  (course delay).begun (g.prepare hell).core.roundsLeft (g.prepare hell)

/-- The operations executed in rounds that begin in these states. -/
def operations (states : List Guarded) : List UInt8 := states.filterMap operation?

/-- The operations that a run executes. -/
def executed (delay : Value) (hell : Bool) (g : Guarded) : List UInt8 :=
  operations (g.begun delay hell)

/-- What has been executed has been noted. -/
theorem Watched.states (h : Watched paranoia g) (delay : Value) (rounds : Nat)
    {past later : List Guarded} {t : Guarded}
    (hstates : (course delay).states rounds g = past ++ t :: later) :
    Watched paranoia t ∧ (operations past).Sublist t.history.toList := by
  refine Course.states_induction
    (P := fun past t => Watched paranoia t ∧ (operations past).Sublist t.history.toList)
    (fun past t ⟨ht, hsub⟩ _ => ⟨ht.after_round delay, ?_⟩) rounds ⟨h, List.nil_sublist _⟩ hstates
  obtain ⟨ops, hhistory, hop⟩ := ht.history_round delay
  rw [operations, List.filterMap_append]
  show List.Sublist _ ((round delay).run.run t).2.history.toList
  rw [hhistory]
  refine hsub.append ?_
  cases hop' : t.operation? with
  | none => simp [hop']
  | some op =>
    rw [hop'] at hop
    simpa [hop'] using hop

/-- A state in which a round begins is a state of the run, with the same states before it. -/
theorem Watched.begun (h : Watched paranoia (g.prepare hell)) {past later : List Guarded}
    {t : Guarded} (hbegun : g.begun delay hell = past ++ t :: later) :
    Watched paranoia t ∧ (operations past).Sublist t.history.toList :=
  h.states delay _ (Course.states_of_begun hbegun)

theorem watched_start (image : Bytecode.Image) (seed stepLimit : Int) (traced : Bool)
    (paranoia : Int) (hidden : Bool) :
    Watched paranoia (start image seed stepLimit traced paranoia hidden) :=
  ⟨rfl, rfl, fun _ => Guard.Analyst.tallies_nil, fun _ => rfl⟩

theorem Watched.prepare (h : Watched paranoia g) (hell : Bool) :
    Watched paranoia (g.prepare hell) := by
  cases hell <;> exact { h with }

theorem length_le_of_count_le {ops : List UInt8} {n : Nat} (h : ∀ op, ops.count op ≤ n) :
    ops.length ≤ 256 * n := by
  have hcard : ops.toFinset.card ≤ 256 := by
    refine (Finset.card_le_card_of_injOn UInt8.toNat (t := Finset.range 256) ?_ ?_).trans_eq
      (Finset.card_range 256)
    · intro op _
      simpa using op.toNat_lt
    · exact fun _ _ _ _ heq => UInt8.toNat_inj.1 heq
  calc ops.length = ∑ op ∈ ops.toFinset, ops.count op := ops.sum_toFinset_count_eq_length.symm
    _ ≤ ops.toFinset.card * n := Finset.sum_le_card_nsmul _ _ _ fun op _ => h op
    _ ≤ 256 * n := Nat.mul_le_mul_right n hcard

/-- The run that a round with the shield alarmed puts an end to. -/
theorem run_of_alarm {past later : List Guarded} {t : Guarded} (challenge : Bool)
    (hbegun : g.begun delay hell = past ++ t :: later) (hcalm : t.shield.calm = false)
    (hanxious : 2 ≤ t.shield.watch.paranoia) :
    later = [] ∧ g.run delay challenge hell = t.warned.conclude (.error .shielded) := by
  obtain ⟨left, hdue, hlater, hloop⟩ := Course.begun_append _ hbegun
  have hround := run_round_of_alarm hcalm hanxious delay
  constructor
  · rw [Course.begun, if_pos hdue] at hlater
    simp only [course, hround] at hlater
    exact (List.cons.inj hlater).2.symm
  · have hend : loop delay (g.prepare hell).core.roundsLeft (g.prepare hell) =
        (.error .shielded, t.warned) := by
      rw [loop_eq_course, hloop, Course.loop, if_pos hdue]
      simp only [course, hround]
    simp only [run, hend]

theorem printed_of_alarm (g : Guarded) :
    (g.warned.conclude (.error .shielded)).2.core.printed = g.core.printed ++
      #["🚨 Abnormal execution environment detected\n",
        "❌ RUNTIME ERROR: Execution terminated by security shield\n"] := by
  show (g.core.printed.push _).push _ = _
  apply Array.toList_inj.1
  simp only [Array.toList_push, Array.toList_append, List.append_assoc]
  rfl

/-- An anxious shield lets each operation be executed 1001 times at most, so that no run executes more
than 256 times as many, and the round that would be the next ends the run with a notice and a failure.
Any other shield stays calm throughout a run and lets every operation pass. -/
theorem shield_bounds_run (image : Bytecode.Image) (seed stepLimit : Int) (traced : Bool)
    (paranoia : Int) (hidden : Bool) (delay : Value) (challenge hell : Bool) :
    let g := start image seed stepLimit traced paranoia hidden
    (2 ≤ paranoia →
      (∀ op, (g.executed delay hell).count op ≤ 1001) ∧
      (g.executed delay hell).length ≤ 256 * 1001 ∧
      ∀ past t later op, g.begun delay hell = past ++ t :: later →
        1001 ≤ (operations past).count op →
          later = [] ∧ t.operation? = none ∧ (g.run delay challenge hell).1 = false ∧
            (g.run delay challenge hell).2.core.printed = t.core.printed ++
              #["🚨 Abnormal execution environment detected\n",
                "❌ RUNTIME ERROR: Execution terminated by security shield\n"]) ∧
    (paranoia ≤ 1 →
      ∀ t ∈ g.begun delay hell, t.shield.calm = true ∧
        ∀ t' op, t'.shield = t.shield → ((consultShield op).run.run t').1 = .ok ()) := by
  intro g
  have hg : Watched paranoia (g.prepare hell) :=
    (watched_start image seed stepLimit traced paranoia hidden).prepare hell
  constructor
  · intro hanxious
    have hcount (op : UInt8) : (g.executed delay hell).count op ≤ 1001 := by
      obtain ⟨hlast, hsub⟩ := hg.states delay _ (Course.states.eq_1 ..)
      exact (hsub.count_le op).trans ((hlast.anxious hanxious).bounded op)
    refine ⟨hcount, length_le_of_count_le hcount, fun past t later op hsplit hmany => ?_⟩
    obtain ⟨ht, hsub⟩ := hg.begun hsplit
    have hdetected : t.shield.analyst.detected = true :=
      (ht.anxious hanxious).detected.2 ⟨op, hmany.trans (hsub.count_le op)⟩
    have hcalm : t.shield.calm = false := by
      rw [← Bool.not_eq_true, ht.calm_iff, hdetected]
      exact Bool.noConfusion
    have hlevel : 2 ≤ t.shield.watch.paranoia := by rwa [ht.level]
    obtain ⟨hlater, hrun⟩ := run_of_alarm challenge hsplit hcalm hlevel
    refine ⟨hlater, ?_, ?_, ?_⟩
    · rw [operation?, run_inspect_of_alarm hcalm, if_pos hlevel]
    · rw [hrun]
      rfl
    · rw [hrun]
      exact printed_of_alarm t
  · intro hrelaxed t ht
    obtain ⟨past, later, hsplit⟩ := List.append_of_mem ht
    obtain ⟨ht, -⟩ := hg.begun hsplit
    refine ⟨ht.calm_iff.2 (ht.relaxed hrelaxed), fun t' op hsame => ?_⟩
    obtain ⟨rng, printed, hpass⟩ :=
      run_consultShield_of_undetected (g := t') (by rw [hsame, ht.undetected]) op
    rw [hpass]

/-! ## A run that is stopped -/

/-- A machine that jumps to the address where it is, and has done so a number of times. -/
structure Circling (times : Nat) (g : Guarded) : Prop extends Watched 2 g where
  code : g.core.code.toList = [Opcode.jump.byte, 0, 0]
  pc : g.core.pc = 0
  traced : g.core.traced = false
  mapping : g.mapping = none
  ordeal : g.ordeal = none
  history : g.history.toList = List.replicate times Opcode.jump.byte

variable {times : Nat}

theorem Circling.due (h : Circling times g) : (course delay).due g = true := by
  have hsize : g.core.code.size = 3 := by rw [← Array.length_toList, h.code]; rfl
  simp [course, h.pc, hsize]

/-- Without a trace, what follows the inspection is the part of a round that executes. -/
theorem run_fulfil (ht : g.core.traced = false) {op : UInt8} (hop : op ≠ Opcode.embezzle.byte) :
    (fulfil (.float 0.0) (some op)).run.run g =
      ((perform (execute op.toNat) g.core).1,
        { g with core := (perform (execute op.toNat) g.core).2 }) := by
  rw [← run_operate g ht hop]
  refine Eq.symm ((run_get_bind _ _).trans ?_)
  rw [ht, if_neg Bool.false_ne_true]
  rfl

/-- Before the alarm, another round is made. -/
theorem Circling.again (h : Circling times g) (hfew : times ≤ 1000) :
    g.operation? = some Opcode.jump.byte ∧
      ∃ g', (round (.float 0.0)).run.run g = (.ok true, g') ∧ Circling (times + 1) g' := by
  have hcalm : g.shield.calm = true := by
    rw [h.calm_iff, ← Bool.not_eq_true, (h.anxious (by decide)).detected, h.history]
    rintro ⟨op, hmany⟩
    have hcount := List.count_le_length (a := op) (l := List.replicate times Opcode.jump.byte)
    rw [List.length_replicate] at hcount
    have hlimit : Guard.Analyst.limit = 1000 := rfl
    omega
  have hb : g.core.byteAt? g.core.pc = some Opcode.jump.byte := by
    rw [h.pc]
    exact byteAt?_of_toList (show g.core.code.toList = [] ++ _ from h.code)
  have hreveal : g.reveal Opcode.jump.byte = Opcode.jump.byte := by rw [reveal, h.mapping]
  obtain ⟨g', hinspect, hpassed⟩ := exists_passed h.undetected hcalm h.ordeal hb
  rw [hreveal] at hinspect hpassed
  refine ⟨by rw [operation?, hinspect], ?_⟩
  obtain ⟨printed, hcore⟩ := hpassed.core
  have hcode : g'.core.code.toList = [] ++ [Opcode.jump.byte, 0, 0] := by rw [hcore]; exact h.code
  have hjump : perform (Machine.effect .jump) g'.core = (.ok (), { g'.core with pc := 0 }) := by
    refine (perform_bind_of_ok _ (operand_of_toList hcode ?_)).trans rfl
    rw [hcore]
    exact h.pc
  have htraced : g'.core.traced = false := by rw [hcore]; exact h.traced
  have hrest := run_fulfil htraced (show Opcode.jump.byte ≠ Opcode.embezzle.byte by decide)
  rw [execute_byte_eq (by decide), perform_execute (by decide) hjump] at hrest
  refine ⟨{ g' with core := { g'.core with pc := 0 } }, ?_, ?_⟩
  · rw [round_eq_inspect, run_bind_of_ok _ hinspect, hrest]
  · have hwatched := h.toWatched.passed hcalm hpassed
    refine ⟨{ hwatched with }, hcode, rfl, htraced, hpassed.mapping.trans h.mapping,
      hpassed.ordeal h.ordeal, ?_⟩
    show g'.history.toList = _
    rw [hpassed.history, Array.toList_push, h.history, List.replicate_succ']

/-- Up to the alarm, all rounds are made. -/
theorem Circling.begun (h : Circling times g) (n : Nat) (hfew : times + n ≤ 1001) :
    ∃ past t, Circling (times + n) t ∧ operations past = List.replicate n Opcode.jump.byte ∧
      ∀ rounds, (course (.float 0.0)).begun (n + rounds) g =
        past ++ (course (.float 0.0)).begun rounds t := by
  induction n generalizing times g with
  | zero => exact ⟨[], g, h, rfl, fun rounds => by rw [Nat.zero_add, List.nil_append]⟩
  | succ n ih =>
    obtain ⟨hop, g', hround, h'⟩ := h.again (by omega)
    obtain ⟨past, t, ht, hops, hbegun⟩ := ih h' (by omega)
    refine ⟨g :: past, t, by rwa [Nat.add_assoc, Nat.add_comm 1] at ht, ?_, fun rounds => ?_⟩
    · rw [operations, List.filterMap_cons_some hop, List.replicate_succ]
      exact congrArg _ hops
    · rw [Nat.add_right_comm, Course.begun, if_pos h.due]
      simp only [course, hround]
      exact congrArg (g :: ·) (hbegun rounds)

/-- Goes in a circle, behind an anxious shield and with steps to spare. -/
def encircled : Guarded := start { code := [Opcode.jump.byte, 0, 0] } 0 5000 false 2 false

theorem shield_bounds_run_encircled :
    ∃ past t, encircled.begun (.float 0.0) false = past ++ [t] ∧
      operations past = List.replicate 1001 Opcode.jump.byte ∧
      (encircled.run (.float 0.0) false false).1 = false := by
  have hstart : Circling 0 (encircled.prepare false) :=
    { (watched_start { code := [Opcode.jump.byte, 0, 0] } 0 5000 false 2 false).prepare false with
      code := rfl, pc := rfl, traced := rfl, mapping := rfl, ordeal := rfl, history := rfl }
  obtain ⟨past, t, ht, hops, hbegun⟩ := hstart.begun 1001 (by decide)
  have hfirst : (course (.float 0.0)).begun 3999 t =
      t :: ((course (.float 0.0)).begun 3999 t).tail := by
    rw [Course.begun, if_pos ht.due, List.tail_cons]
  have hsplit : encircled.begun (.float 0.0) false =
      past ++ t :: ((course (.float 0.0)).begun 3999 t).tail := by
    rw [← hfirst]
    exact hbegun 3999
  have hmany : 1001 ≤ (operations past).count Opcode.jump.byte := by
    rw [hops, List.count_replicate_self]
  obtain ⟨hlater, -, hanswer, -⟩ :=
    ((shield_bounds_run { code := [Opcode.jump.byte, 0, 0] } 0 5000 false 2 false (.float 0.0) false
      false).1 (by decide)).2.2 past t _ Opcode.jump.byte hsplit hmany
  exact ⟨past, t, by rw [hsplit, hlater], hops, hanswer⟩

end Birokrasi.Machine.Guarded
