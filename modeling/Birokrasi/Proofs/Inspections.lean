import Birokrasi.Proofs.RunStates

/-!
# What the guard does before an operation

A round of the guarded machine begins with an inspection (`Guarded.inspect`). It ends in one of four
ways (`Inspection`): the shield has been alarmed and refuses, there is no byte at the address, the
operation that is found passes, or the ordeal fails at it. An operation that passes changes the
guard and the output, and nothing else of the machine inside (`Passed`). The clock of the shield is
never looked at during a run, so only a count of operations can alarm it.

What the guard has noted is left alone by the rest of the round (`keeps_fulfil`).
-/

namespace Birokrasi.Guard.Shield

variable {s : Shield} {state : Snapshot}

/-- The first thing that the shield does at an operation: an anxious one notes it. -/
def noteOperation (op : Int) : Act Unit := do
  if 2 ≤ (← get).1.watch.paranoia then
    let s ← get
    set ({ s.1 with analyst := (s.1.analyst.note op).2 }, s.2)
    if (s.1.analyst.note op).1 then springTrap

/-- The second thing: one that is not at ease may show a decoy. -/
def bait (state : Snapshot) : Act Unit := do
  if 1 ≤ (← get).1.watch.paranoia then
    let s ← get
    let drawn ← calculate (s.1.wantsDecoy state)
    set (drawn.2, s.2)
    if drawn.1 && (state.getD "debug_mode" .none).truthy then
      set (drawn.2.decoy.2, s.2)
      print ("[DECOY] " ++ drawn.2.decoy.1)

theorem onOperation_eq_bind (op : Int) (state : Snapshot) :
    onOperation op state = noteOperation op >>= fun _ => bait state := by
  simp only [onOperation, noteOperation, bind_assoc]
  refine bind_congr fun s => ?_
  split
  · simp only [bind_assoc]
    refine bind_congr fun s => bind_congr fun _ => ?_
    split
    · rfl
    · rw [pure_bind]
      rfl
  · rw [pure_bind]
    rfl

/-- The analyst of a shield after an operation. -/
def noted (s : Shield) (op : Int) : Analyst :=
  if 2 ≤ s.watch.paranoia then (s.analyst.note op).2 else s.analyst

/-- An operation that comes too often springs no trap, since traps are for those whom the clock gives
away. -/
theorem run_noteOperation (op : Int) (hwatch : s.watch.detected = false) (lines : List String) :
    (noteOperation op).run.run (s, lines) = (.ok (), { s with analyst := s.noted op }, lines) := by
  have htrap (analyst : Analyst) : springTrap.run.run ({ s with analyst }, lines) =
      (.ok (), { s with analyst }, lines) := by
    refine (run_get_bind _ _).trans ?_
    simp only [Watch.trap, hwatch, Bool.not_false, if_true]
    rfl
  refine (run_get_bind _ _).trans ?_
  unfold noted
  by_cases hanxious : 2 ≤ s.watch.paranoia
  · rw [if_pos hanxious, if_pos hanxious]
    refine (run_get_bind _ _).trans ((run_set_bind _ _ _).trans ?_)
    dsimp only
    split
    · exact htrap _
    · rfl
  · rw [if_neg hanxious, if_neg hanxious]
    rfl

/-- A decoy is drawn and may be shown. -/
theorem run_bait {traced : Bool} {steps : Int} (hd : state "debug_mode" = some (.bool traced))
    (hs : state "step_count" = some (.int steps)) (s : Shield) :
    ∃ rng lines, (bait state).run.run (s, []) = (.ok (), { s with rng }, lines) := by
  obtain ⟨wanted, rng, hcalc⟩ := Machine.Guarded.run_wantsDecoy hd hs s
  by_cases halert : 1 ≤ s.watch.paranoia
  · rw [bait, run_get_bind, if_pos halert, run_get_bind, run_bind_of_ok _ hcalc, run_set_bind]
    split
    · exact ⟨_, _, rfl⟩
    · exact ⟨_, _, rfl⟩
  · refine ⟨s.rng, [], ?_⟩
    refine (run_get_bind _ _).trans ?_
    rw [if_neg halert]
    rfl

end Birokrasi.Guard.Shield

namespace Birokrasi.Machine.Guarded

open Birokrasi.Guard (Shield)

variable {g g' : Guarded} {op : UInt8}

/-! ## The parts of an inspection -/

theorem run_print (line : String) (g : Guarded) :
    (print line).run.run g =
      (.ok (), { g with core := { g.core with printed := g.core.printed.push (line ++ "\n") } }) := by
  rw [print, run_onCore]
  rfl

theorem run_forM_print (lines : List String) (g : Guarded) :
    ∃ printed, (lines.forM print).run.run g = (.ok (), { g with core := { g.core with printed } }) := by
  induction lines generalizing g with
  | nil => exact ⟨g.core.printed, rfl⟩
  | cons line rest ih =>
    obtain ⟨printed, hrest⟩ :=
      ih { g with core := { g.core with printed := g.core.printed.push (line ++ "\n") } }
    exact ⟨printed, (run_bind_of_ok _ (run_print line g)).trans hrest⟩

/-- The shield notes an operation and lets it pass, whatever the machine is doing. -/
theorem run_consultShield_of_undetected (hwatch : g.shield.watch.detected = false) (op : UInt8) :
    ∃ rng printed, (consultShield op).run.run g =
      (.ok (),
        { g with
          core := { g.core with printed }
          shield := { g.shield with analyst := g.shield.noted op.toNat, rng } }) := by
  have hd : g.snapshot "debug_mode" = some (.bool g.core.traced) := by simp [snapshot]
  have hs : g.snapshot "step_count" = some (.int g.core.steps) := by simp [snapshot]
  obtain ⟨rng, lines, hbait⟩ :=
    Shield.run_bait hd hs { g.shield with analyst := g.shield.noted op.toNat }
  have hshield : (Shield.onOperation op.toNat g.snapshot).run.run (g.shield, []) =
      (.ok (), { g.shield with analyst := g.shield.noted op.toNat, rng }, lines) := by
    rw [Shield.onOperation_eq_bind,
      run_bind_of_ok _ (Shield.run_noteOperation op.toNat hwatch []), hbait]
  obtain ⟨printed, hlines⟩ := run_forM_print lines
    { g with shield := { g.shield with analyst := g.shield.noted op.toNat, rng } }
  refine ⟨rng, printed, ?_⟩
  refine (run_get_bind _ _).trans ?_
  rw [hshield]
  refine (run_set_bind _ _ _).trans ?_
  exact (run_bind_of_ok _ hlines).trans rfl

/-- The ordeal prints, and may fail; there is none unless the run goes through one. -/
theorem run_consultOrdeal_cases (g : Guarded) :
    ∃ r printed ordeal, consultOrdeal.run.run g =
      (r, { g with core := { g.core with printed }, ordeal }) ∧ (g.ordeal = none → ordeal = none) ∧
        (r = .ok () ∨ g.ordeal ≠ none ∧ ∃ f, r = .error (.fault f)) := by
  obtain ⟨core, shield, mutator, mapping, history, ordeal⟩ := g
  cases ordeal with
  | none => exact ⟨.ok (), core.printed, none, rfl, fun _ => rfl, .inl rfl⟩
  | some ordeal =>
    cases hlook : (Challenge.Ordeal.look (snapshot ⟨core, shield, mutator, mapping, history, ordeal⟩)).run.run
        { ordeal with printed := #[] } with
    | mk outcome looked =>
      rw [consultOrdeal, run_get_bind]
      simp only [hlook]
      cases outcome with
      | ok u => exact ⟨_, _, _, rfl, nofun, .inl rfl⟩
      | error f => exact ⟨_, _, _, rfl, nofun, .inr ⟨nofun, f, rfl⟩⟩

/-- What the shield prints when it stops a run. -/
def notice : String := "🚨 Abnormal execution environment detected"

/-- The machine after a refusal. -/
def warned (g : Guarded) : Guarded :=
  { g with core := { g.core.counted with printed := g.core.printed.push (notice ++ "\n") } }

theorem run_refuse (g : Guarded) :
    refuse.run.run g =
      (if 2 ≤ g.shield.watch.paranoia then .error .shielded else .ok false,
        { g with core := { g.core with printed := g.core.printed.push (notice ++ "\n") } }) := by
  refine (run_bind_of_ok _ (run_print _ g)).trans ((run_get_bind _ _).trans ?_)
  dsimp only
  split <;> rfl

/-- What the guard does about an operation that has been found. -/
def examine (op : UInt8) : Act (Option UInt8) := do
  consultShield op
  consultOrdeal
  if (← get).core.traced then print (traceLine (← get).core op)
  return some op

theorem run_examine (hwatch : g.shield.watch.detected = false) (op : UInt8) :
    ∃ r rng printed ordeal, (examine op).run.run g =
      (r,
        { g with
          core := { g.core with printed }
          shield := { g.shield with analyst := g.shield.noted op.toNat, rng }
          ordeal }) ∧
        (g.ordeal = none → ordeal = none) ∧
        (r = .ok (some op) ∨ g.ordeal ≠ none ∧ ∃ f, r = .error (.fault f)) := by
  obtain ⟨rng, printed, hshield⟩ := run_consultShield_of_undetected hwatch op
  obtain ⟨r, printed', ordeal, hordeal, hnone, hr⟩ := run_consultOrdeal_cases
    { g with
      core := { g.core with printed }
      shield := { g.shield with analyst := g.shield.noted op.toNat, rng } }
  rw [examine, run_bind_of_ok _ hshield]
  rcases hr with rfl | ⟨hsome, f, rfl⟩
  · rw [run_bind_of_ok _ hordeal, run_get_bind]
    split
    · rw [run_get_bind, run_bind_of_ok _ (run_print _ _)]
      exact ⟨_, _, _, _, rfl, hnone, .inl rfl⟩
    · exact ⟨_, _, _, _, rfl, hnone, .inl rfl⟩
  · rw [run_bind_of_error _ hordeal]
    exact ⟨_, _, _, _, rfl, hnone, .inr ⟨hsome, f, rfl⟩⟩

/-! ## Inspections -/

theorem run_inspect_of_alarm (h : g.shield.calm = false) :
    inspect.run.run g =
      (if 2 ≤ g.shield.watch.paranoia then .error .shielded else .ok none, g.warned) := by
  have hrefuse := run_refuse { g with core := g.core.counted }
  refine (run_modify_bind _ _ _).trans ((run_get_bind _ _).trans ?_)
  rw [h, Bool.not_false, if_pos rfl]
  by_cases hanxious : 2 ≤ g.shield.watch.paranoia
  · rw [if_pos hanxious] at hrefuse ⊢
    exact run_bind_of_error _ hrefuse
  · rw [if_neg hanxious] at hrefuse ⊢
    exact run_bind_of_ok _ hrefuse

theorem run_inspect_of_none (h : g.shield.calm = true) (hb : g.core.byteAt? g.core.pc = none) :
    inspect.run.run g =
      (.error (.fault (.indexRange g.core.edition.memory)), { g with core := g.core.counted }) := by
  have hfetch := run_onCore (fetch g.core.pc) { g with core := g.core.counted }
  rw [perform_fetch_none (m := g.core.counted) hb] at hfetch
  refine (run_modify_bind _ _ _).trans ((run_get_bind _ _).trans ?_)
  rw [h, Bool.not_true, if_neg Bool.false_ne_true]
  exact (run_get_bind _ _).trans (run_bind_of_error _ hfetch)

theorem run_inspect_of_some {b : UInt8} (h : g.shield.calm = true)
    (hb : g.core.byteAt? g.core.pc = some b) :
    inspect.run.run g =
      (examine (g.reveal b)).run.run
        { g with core := g.core.counted, history := g.history.push (g.reveal b) } := by
  have hfetch := run_onCore (fetch g.core.pc) { g with core := g.core.counted }
  rw [perform_fetch (m := g.core.counted) hb] at hfetch
  refine (run_modify_bind _ _ _).trans ((run_get_bind _ _).trans ?_)
  rw [h, Bool.not_true, if_neg Bool.false_ne_true]
  refine (run_get_bind _ _).trans ((run_bind_of_ok _ hfetch).trans ?_)
  exact (run_get_bind _ _).trans (run_modify_bind _ _ _)

/-- What an operation that has passed has changed. -/
structure Passed (op : UInt8) (g g' : Guarded) : Prop where
  core : ∃ printed, g'.core = { g.core.counted with printed }
  mutator : g'.mutator = g.mutator
  mapping : g'.mapping = g.mapping
  history : g'.history = g.history.push op
  watch : g'.shield.watch = g.shield.watch
  analyst : g'.shield.analyst = g.shield.noted op.toNat
  ordeal : g.ordeal = none → g'.ordeal = none

/-- How an inspection can end. -/
inductive Inspection (g : Guarded) : Except Failure (Option UInt8) × Guarded → Prop where
  | refused (hcalm : g.shield.calm = false) (hanxious : 2 ≤ g.shield.watch.paranoia) :
    Inspection g (.error .shielded, g.warned)
  | left (hcalm : g.shield.calm = false) (hanxious : ¬ 2 ≤ g.shield.watch.paranoia) :
    Inspection g (.ok none, g.warned)
  | missing (hb : g.core.byteAt? g.core.pc = none) (f : Fault) :
    Inspection g (.error (.fault f), { g with core := g.core.counted })
  | passed {b : UInt8} {g' : Guarded} (hcalm : g.shield.calm = true)
    (hb : g.core.byteAt? g.core.pc = some b) (h : Passed (g.reveal b) g g') :
    Inspection g (.ok (some (g.reveal b)), g')
  | failed {b : UInt8} {g' : Guarded} (hcalm : g.shield.calm = true) (hordeal : g.ordeal ≠ none)
    (hb : g.core.byteAt? g.core.pc = some b) (h : Passed (g.reveal b) g g') (f : Fault) :
    Inspection g (.error (.fault f), g')

/-- An inspection ends in one of these ways, if the clock has given nothing away. -/
theorem inspection (hwatch : g.shield.watch.detected = false) :
    Inspection g (inspect.run.run g) := by
  cases hcalm : g.shield.calm with
  | false =>
    rw [run_inspect_of_alarm hcalm]
    split
    · exact .refused hcalm ‹_›
    · exact .left hcalm ‹_›
  | true =>
    cases hb : g.core.byteAt? g.core.pc with
    | none =>
      rw [run_inspect_of_none hcalm hb]
      exact .missing hb _
    | some b =>
      rw [run_inspect_of_some hcalm hb]
      obtain ⟨r, rng, printed, ordeal, hrun, hnone, hr⟩ := run_examine (g := { g with
        core := g.core.counted, history := g.history.push (g.reveal b) }) hwatch (g.reveal b)
      rw [hrun]
      rcases hr with rfl | ⟨hsome, f, rfl⟩
      · refine .passed hcalm hb ?_
        exact ⟨⟨printed, rfl⟩, rfl, rfl, rfl, rfl, rfl, hnone⟩
      · refine .failed hcalm hsome hb ?_ f
        exact ⟨⟨printed, rfl⟩, rfl, rfl, rfl, rfl, rfl, hnone⟩

/-- A calm shield lets the operation that is found pass, and without an ordeal nothing else can stop
it. -/
theorem exists_passed {b : UInt8} (hwatch : g.shield.watch.detected = false)
    (hcalm : g.shield.calm = true) (hordeal : g.ordeal = none)
    (hb : g.core.byteAt? g.core.pc = some b) :
    ∃ g', inspect.run.run g = (.ok (some (g.reveal b)), g') ∧ Passed (g.reveal b) g g' := by
  have hend := inspection hwatch
  generalize inspect.run.run g = outcome at hend
  cases hend with
  | refused halarm | left halarm => simp [hcalm] at halarm
  | missing hnone => simp [hb] at hnone
  | failed _ hsome => exact absurd hordeal hsome
  | passed _ hb' hpassed =>
    obtain rfl : b = _ := Option.some.inj (hb.symm.trans hb')
    exact ⟨_, rfl, hpassed⟩

/-- The operation that is executed in a round that begins here. -/
def operation? (g : Guarded) : Option UInt8 :=
  match (inspect.run.run g).1 with
  | .ok op => op
  | .error _ => none

/-- The rest of a round changes the machine inside and the mutator. -/
theorem keeps_fulfil {P : Guarded → Prop} (hcore : ∀ g core, P g → P { g with core })
    (hmutator : ∀ g mutator, P g → P { g with mutator }) (delay : Value) (op : Option UInt8) :
    Keeps P (fulfil delay op) := by
  have honCore {α : Type} (r : Run α) : Keeps P (onCore r) := fun g hg => by
    rw [run_onCore]
    exact hcore g _ hg
  have hwait : Keeps P (do
      if (← onCore (calculate (delay.greater (.int 0)))) then onCore (wait delay)
      return true) :=
    (honCore _).bind fun late => .ite ((honCore _).bind fun _ => .pure true) (.pure true)
  cases op with
  | none => exact .pure false
  | some op =>
    refine (honCore _).bind fun more => .ite (.pure false) (.get fun g hg => .ite ?_ hwait)
    refine .bind (.get fun g hg => ?_) fun _ => hwait
    split
    · exact .set (hmutator _ _ (hcore _ _ hg))
    · exact .throw _

end Birokrasi.Machine.Guarded
