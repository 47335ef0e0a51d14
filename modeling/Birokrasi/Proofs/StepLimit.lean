import Birokrasi.Proofs.WatchedRuns

/-!
# The limit of steps

A step beyond the limit fails, but an attempt may take that failure over as it may any other, and then the
run goes on until its next step. So every failure of the limit that is taken over allows one step more, and
nothing else does: `steps_limited` counts them. A run in which there is none keeps to the limit: it starts
no statement beyond it, and it ends with the step that goes beyond it.
-/

namespace Birokrasi.Structured

/-! ## Counting -/

/-- An attempt takes over the failure of the limit. -/
def Event.isOverrun : Event → Bool
  | .recovery _ .stepLimit _ => true
  | _ => false

/-- How many failures of the limit were taken over. -/
def overruns (events : List Event) : Nat := events.countP Event.isOverrun

/-- The count when a statement was started, and when a failure was taken over, was at most what the failures
of the limit taken over until then allow. -/
def Kept (allowed : Int) : List Event → Prop
  | [] => True
  | .start _ s :: past => s.steps ≤ allowed + overruns past ∧ Kept allowed past
  | .recovery _ _ s :: past => s.steps ≤ allowed + overruns past + 1 ∧ Kept allowed past

theorem Stepped.settings_and_steps {s t : State} (h : Stepped s t) :
    t.settings = s.settings ∧ t.steps = s.steps + 1 := by
  induction h with
  | count => exact ⟨rfl, rfl⟩
  | year _ _ ih => exact ih
  | wait _ _ ih => exact ih

/-! ## Runs -/

/-- The count is at most what is allowed. -/
structure InLimit (limit allowed : Int) (s : State) (events : List Event) : Prop where
  limit : s.settings.stepLimit = limit
  kept : Kept allowed events
  steps : s.steps ≤ allowed + overruns events

/-- The same after a failure: a step that failed may have been one too many. -/
structure OutOfLimit (limit allowed : Int) (e : Failure) (s : State) (events : List Event) : Prop where
  limit : s.settings.stepLimit = limit
  kept : Kept allowed events
  steps : s.steps ≤ allowed + overruns events + 1
  cause : allowed + overruns events < s.steps → e = s.stepFailure

section

variable {limit allowed : Int} {s t : State} {e : Failure} {events : List Event}

theorem InLimit.out (h : InLimit limit allowed s events) (e : Failure) :
    OutOfLimit limit allowed e s events where
  limit := h.limit
  kept := h.kept
  steps := by have := h.steps; omega
  cause hover := by have := h.steps; omega

theorem InLimit.congr (h : InLimit limit allowed s events) (hsettings : t.settings = s.settings)
    (hsteps : t.steps = s.steps) : InLimit limit allowed t events where
  limit := hsettings ▸ h.limit
  kept := h.kept
  steps := hsteps ▸ h.steps

theorem State.settings_set (s : State) (name : String) (v : Value) :
    (s.set name v).settings = s.settings := by
  unfold State.set
  split <;> rfl

theorem State.steps_set (s : State) (name : String) (v : Value) :
    (s.set name v).steps = s.steps := by
  unfold State.set
  split <;> rfl

theorem InLimit.start (h : InLimit limit allowed s events) (stmt : Stmt) :
    InLimit limit allowed s (.start stmt s :: events) :=
  ⟨h.limit, ⟨h.steps, h.kept⟩, h.steps⟩

/-- A failure of the limit that is taken over allows a step more, and that step has been made. -/
theorem OutOfLimit.recover (h : OutOfLimit limit allowed e s events) (he : e.recoverable)
    (began : State) : InLimit limit allowed s (.recovery began e s :: events) := by
  refine ⟨h.limit, ⟨h.steps, h.kept⟩, ?_⟩
  have hsteps := h.steps
  by_cases hover : allowed + overruns events < s.steps
  · rcases Failure.eq_of_stepFailure (h.cause hover) with rfl | ⟨f, rfl⟩
    · have hcount : overruns (.recovery began .stepLimit s :: events) = overruns events + 1 :=
        List.countP_cons_of_pos rfl
      omega
    · cases he
  · have hcount : overruns events ≤ overruns (.recovery began e s :: events) :=
      (List.sublist_cons_self _ events).countP_le
    omega

theorem leads_tick_inLimit (hlimit : limit ≤ allowed) (events : List Event) :
    Leads (InLimit limit allowed · events) (InLimit limit allowed · events)
      (OutOfLimit limit allowed · · events) tick := by
  intro s hs
  have hsteps := hs.steps
  refine (ends_tick s).imp (fun t ht => ?_) (fun e t ht => ?_)
  · obtain ⟨hstepped, hin⟩ := ht
    obtain ⟨hsettings, hcount⟩ := hstepped.settings_and_steps
    rw [hs.limit] at hin
    exact ⟨hsettings ▸ hs.limit, hs.kept, by omega⟩
  · obtain ⟨hstepped, he⟩ := ht
    obtain ⟨hsettings, hcount⟩ := hstepped.settings_and_steps
    exact ⟨hsettings ▸ hs.limit, hs.kept, by omega, fun _ => he⟩

theorem regime_inLimit (hlimit : limit ≤ allowed) :
    Regime (fun (_ : Unit) w => InLimit limit allowed w.state w.events)
      (fun _ e w => OutOfLimit limit allowed e w.state w.events) where
  fails e h := h.out e
  start stmt h := h.start stmt
  reprint _ h := h.congr rfl rfl
  redefine _ h := h.congr rfl rfl
  recharge _ h := h.congr rfl rfl
  set {_ s _} name v h := h.congr (s.settings_set name v) (s.steps_set name v)
  setGlobal _ _ h := h.congr rfl rfl
  tick _ l := leads_tick_inLimit hlimit l
  scope h := ⟨(), h.congr rfl rfl, fun h' => h'.congr rfl rfl, fun h' => h'⟩
  attempt {_ w} h := ⟨(), h, fun h' => h', fun h' => ⟨h', fun he => h'.recover he w.state⟩⟩

end

/-- A run starts no statement with more steps than the limit and the failures of the limit that were taken
over before it, and it makes one step more at most. If it makes that one it ends there, with the failure of
the limit; with another one only if the year or the delay kept the step from coming to the limit. -/
theorem steps_limited (depth : Nat) (p : Program) (s : State) :
    let events := (p.observe depth).events s
    let allowed : Int := max s.settings.stepLimit s.steps
    let ended := (p.run depth).run.run s
    Kept allowed events ∧ ended.2.steps ≤ allowed + overruns events + 1 ∧
      (allowed + overruns events < ended.2.steps → ended.1 = .error ended.2.stepFailure) := by
  intro events allowed ended
  have hsteps : (s.steps : Int) ≤ allowed := Int.le_max_right _ _
  have hstart : InLimit s.settings.stepLimit allowed s [] := ⟨rfl, trivial, by omega⟩
  have hregime := regime_inLimit (Int.le_max_left s.settings.stepLimit s.steps)
  have hends : Ends (InLimit s.settings.stepLimit allowed · events)
      (OutOfLimit s.settings.stepLimit allowed · · events) ended :=
    (p.erases_observe depth).ends (hregime.leads_program depth p ()) hstart
  clear_value ended
  obtain ⟨e | a, s'⟩ := ended
  · exact ⟨hends.kept, hends.steps, fun hover => congrArg _ (hends.cause hover)⟩
  · have hout := hends.out .stepLimit
    exact ⟨hout.kept, hout.steps, fun hover => absurd hends.steps (Int.not_le.2 hover)⟩

/-- A step beyond the limit that nothing takes over. -/
def hasty : Program := ⟨[.report 1 "1", .report 2 "2"]⟩

theorem steps_limited_hasty :
    let ended := (hasty.run 2).run.run { settings := { stepLimit := 0 } }
    ended.2.steps = 1 ∧ ended.1 = .error .stepLimit :=
  ⟨rfl, (steps_limited 2 hasty { settings := { stepLimit := 0 } }).2.2 (by decide)⟩

/-- Two attempts, each of a step beyond the limit. -/
def insistent : Program := ⟨[.attempt 1 [.report 2 "1"] [], .attempt 5 [.report 6 "2"] []]⟩

/-- The failure of the limit is taken over, and taken over again. -/
theorem steps_not_limited :
    ((insistent.run 3).run.run { settings := { stepLimit := 0 } }).1 = .ok () ∧
      ((insistent.run 3).run.run { settings := { stepLimit := 0 } }).2.steps = 2 :=
  ⟨rfl, rfl⟩

end Birokrasi.Structured
