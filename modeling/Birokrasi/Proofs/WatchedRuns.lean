import Birokrasi.Proofs.CoreLanguage
import Birokrasi.Proofs.Outcome
import Birokrasi.Structured.Execution

/-!
# Watched runs

Execution with a record of what happens: which statements are started, and which failures an attempt takes
over (`observe`). The record changes nothing (`erases_observe`), but it gives assertions a past to speak of.

Assertions come in families, `I i` for states and `E i` for failures. Two things may move execution from one
member of a family to another: a scope that is opened, and an attempt that has to remember what it began
with. A family that these respect, and the elementary changes of the state, is a `Regime`, and execution as
a whole respects it (`Regime.leads_observe`).
-/

namespace Birokrasi.Structured

/-! ## The record -/

/-- What happens in a run. -/
inductive Event where
  | start (stmt : Stmt) (state : State)
  /-- An attempt takes a failure over: the states in which it began, and in which it failed. -/
  | recovery (began : State) (failure : Failure) (failed : State)

/-- A state, and what has happened before it, the latest first. -/
structure Watch where
  state : State
  events : List Event := []

abbrev Watched := ExceptT Failure (StateM Watch)

/-- Records something that happens in the present state. -/
def note (event : State → Event) : Watched Unit :=
  modify fun w => { w with events := event w.state :: w.events }

/-- An action on the state, of which nothing is recorded. -/
def unwatched {α : Type} (x : Run α) : Watched α := do
  let w ← get
  let (outcome, state) := x.run.run w.state
  set { w with state }
  match outcome with
  | .ok a => return a
  | .error e => throw e

/-- A watched action in a scope of its own. A failure leaves the scope open. -/
def inScope (act : Watched Unit) : Watched Unit := do
  unwatched (modify State.push)
  act
  unwatched (modify State.pop)

/-- A watched action a number of times, as `times` does one that is not watched. -/
def watchedTimes (act : Watched Unit) : Nat → Watched Unit
  | 0 => pure ()
  | n + 1 => do
    act
    watchedTimes act n

/-- Executes a statement, to at most the given depth, and records what happens. -/
def observe : (depth : Nat) → Stmt → Watched Unit
  | 0, _ => throw .unfinished
  | depth + 1, stmt => do
    note (.start stmt)
    match stmt with
    | .block line body =>
      unwatched (trace line "Block")
      inScope (body.forM (observe depth))
    | .attempt line body recovery =>
      unwatched (trace line "TryCatch")
      let began := (← get).state
      tryCatch (body.forM (observe depth)) fun e => do
        if e.recoverable then
          note (.recovery began e)
          unwatched (print ("⚠️  Exception: " ++ e.message))
          recovery.forM (observe depth)
        else throw e
    | .meeting line count body =>
      unwatched (trace line "RapatLoop")
      unwatched tick
      let n ← unwatched (evaluateFloat count)
      let n ← unwatched (Run.ofExcept (ofFault (Number.intOfFloat n)))
      watchedTimes (body.forM (observe depth)) n.toNat
    | .call line name =>
      unwatched (trace line "ProcCall")
      match (← get).state.procedures.get? name with
      | none => throw (.unknownProcedure name)
      | some body => inScope (body.forM (observe depth))
    | .branch line condition body otherwise =>
      unwatched (trace line "IfStmt")
      unwatched tick
      let v ← unwatched (evaluate condition)
      (if v.truthy then body else otherwise).forM (observe depth)
    -- The other statements have no parts, so that the depth does not matter.
    | .procedure .. | .assign .. | .report .. | .embezzle .. | .stall .. | .unknown .. =>
      unwatched (execute 1 stmt)

/-- Executes a program as `Program.run` does, and records what happens. -/
def Program.observe (depth : Nat) (p : Program) : Watched Unit := do
  unwatched (trace 1 "Program")
  p.body.forM (Structured.observe depth)

/-- What happens in a watched run, the latest first. -/
def Watched.events {α : Type} (x : Watched α) (s : State) : List Event :=
  (x.run.run { state := s }).2.events

/-! ## The record changes nothing -/

section Erasure

variable {α β : Type}

theorem run_unwatched (x : Run α) (w : Watch) :
    (unwatched x).run.run w = ((x.run.run w.state).1, { w with state := (x.run.run w.state).2 }) := by
  refine (run_get_bind _ _).trans ?_
  generalize x.run.run w.state = outcome
  obtain ⟨e | a, s⟩ := outcome <;> rfl

/-- The watched action does what the other one does. -/
def Erases (x : Watched α) (y : Run α) : Prop :=
  ∀ w, ((x.run.run w).1, (x.run.run w).2.state) = y.run.run w.state

namespace Erases

theorem pure (a : α) : Erases (pure a) (pure a) := fun _ => rfl

theorem throw (e : Failure) : Erases (throw e : Watched α) (throw e) := fun _ => rfl

theorem unwatched (x : Run α) : Erases (unwatched x) x := by
  intro w
  rw [run_unwatched]
  rfl

theorem bind {x : Watched α} {y : Run α} {f : α → Watched β} {g : α → Run β} (h : Erases x y)
    (hf : ∀ a, Erases (f a) (g a)) : Erases (x >>= f) (y >>= g) := by
  intro w
  have hx := h w
  cases hrun : x.run.run w with
  | mk r w' =>
    rw [hrun] at hx
    cases r with
    | error e => rw [run_bind_of_error f hrun, run_bind_of_error g hx.symm]
    | ok a =>
      rw [run_bind_of_ok f hrun, run_bind_of_ok g hx.symm]
      exact hf a w'

theorem note {event : State → Event} {f : Unit → Watched α} {y : Run α} (h : Erases (f ()) y) :
    Erases (note event >>= f) y :=
  fun w => h { w with events := event w.state :: w.events }

theorem get {f : Watch → Watched α} {g : State → Run α} (h : ∀ w, Erases (f w) (g w.state)) :
    Erases (get >>= f) (get >>= g) :=
  fun w => h w w

theorem look {f : Watch → Watched α} {y : Run α} (h : ∀ w, Erases (f w) y) :
    Erases (MonadState.get >>= f) y :=
  fun w => h w w

theorem tryCatch {x : Watched α} {y : Run α} {f : Failure → Watched α} {g : Failure → Run α}
    (h : Erases x y) (hf : ∀ e, Erases (f e) (g e)) : Erases (tryCatch x f) (tryCatch y g) := by
  intro w
  have hx := h w
  cases hrun : x.run.run w with
  | mk r w' =>
    rw [hrun] at hx
    cases r with
    | ok a => rw [run_tryCatch_of_ok f hrun, run_tryCatch_of_ok g hx.symm]
    | error e =>
      rw [run_tryCatch_of_error f hrun, run_tryCatch_of_error g hx.symm]
      exact hf e w'

theorem forM {f : β → Watched PUnit} {g : β → Run PUnit} (h : ∀ b, Erases (f b) (g b)) :
    (items : List β) → Erases (items.forM f) (items.forM g)
  | [] => .pure _
  | b :: rest => (h b).bind fun _ => forM h rest

theorem times {x : Watched Unit} {y : Run Unit} (h : Erases x y) :
    (n : Nat) → Erases (watchedTimes x n) (Structured.times y n)
  | 0 => .pure ()
  | n + 1 => h.bind fun _ => times h n

theorem inScope {x : Watched Unit} {y : Run Unit} (h : Erases x y) :
    Erases (inScope x) (do modify State.push; y; modify State.pop) :=
  (Erases.unwatched _).bind fun _ => h.bind fun _ => .unwatched _

end Erases

theorem erases_observe (depth : Nat) (stmt : Stmt) : Erases (observe depth stmt) (execute depth stmt) := by
  induction depth generalizing stmt with
  | zero => exact .throw _
  | succ depth ih =>
    have hall (body : List Stmt) := Erases.forM ih body
    refine Erases.note ?_
    cases stmt with
    | block line body => exact (Erases.unwatched _).bind fun _ => (hall body).inScope
    | attempt line body recovery =>
      refine (Erases.unwatched _).bind fun _ => .look fun w => (hall body).tryCatch fun e => ?_
      split
      · exact .note ((Erases.unwatched _).bind fun _ => hall recovery)
      · exact .throw e
    | meeting line count body =>
      refine (Erases.unwatched _).bind fun _ => (Erases.unwatched _).bind fun _ => ?_
      refine (Erases.unwatched _).bind fun n => (Erases.unwatched _).bind fun n => ?_
      exact (hall body).times n.toNat
    | call line name =>
      refine (Erases.unwatched _).bind fun _ => .get fun w => ?_
      cases w.state.procedures.get? name with
      | none => exact .throw _
      | some body => exact (hall body).inScope
    | branch line condition body otherwise =>
      refine (Erases.unwatched _).bind fun _ => (Erases.unwatched _).bind fun _ => ?_
      exact (Erases.unwatched _).bind fun v => hall _
    | _ => exact .unwatched _

theorem Program.erases_observe (depth : Nat) (p : Program) : Erases (p.observe depth) (p.run depth) :=
  (Erases.unwatched _).bind fun _ => .forM (Structured.erases_observe depth) p.body

end Erasure

/-! ## Steps -/

/-- What a step may make of a state, until it fails or comes to its end. -/
inductive Stepped (s : State) : State → Prop where
  | count : Stepped s { s with steps := s.steps + 1 }
  | year {t : State} (v : Value) : Stepped s t → Stepped s (t.setGlobal "tahun" v)
  | wait {t : State} (waits : Array Value) : Stepped s t → Stepped s { t with waits }

theorem exists_float_of_numeric {v w : Value} {x : Float}
    (h : Value.numeric "+" Number.add v (.float x) = .ok w) : ∃ y, w = .float y := by
  unfold Value.numeric at h
  split at h
  next m n hm hn =>
    cases hn
    obtain ⟨sum, hsum, hw⟩ := bind_eq_ok.1 h
    cases hw
    cases m with
    | int m =>
      obtain ⟨a, -, hsum⟩ := bind_eq_ok.1 hsum
      cases hsum
      exact ⟨_, rfl⟩
    | float m =>
      cases hsum
      exact ⟨_, rfl⟩
  · cases h

theorem exists_float_of_add {v w : Value} {x : Float} (h : v.add (.float x) = .ok w) :
    ∃ y, w = .float y := by
  simp only [Value.add] at h
  split at h
  · cases h
  · cases h
  · cases h
  · exact exists_float_of_numeric h

/-- What a step does before it looks at the limit: the year goes on, and the delay is waited for. -/
def State.pace (s : State) : Except Fault Unit := do
  let _ ← ((s.global.get? "tahun").getD (.int 0)).add (.float 0.01)
  if (← s.settings.delay.greater (.int 0)) then s.settings.delay.waitable

/-- The failure of a step that is one too many: that of the limit, unless the year or the delay is such
that the step fails before it looks at the limit. -/
def State.stepFailure (s : State) : Failure :=
  match s.pace with
  | .ok _ => .stepLimit
  | .error f => .fault f

/-- A year that has gone on does not stop the step. -/
theorem State.pace_setGlobal (s : State) (y : Float) :
    (s.setGlobal "tahun" (.float y)).pace =
      (do if (← s.settings.delay.greater (.int 0)) then s.settings.delay.waitable) := by
  have hyear : (s.setGlobal "tahun" (.float y)).global.get? "tahun" = some (.float y) := by
    rw [State.setGlobal, Table.get?_put, if_pos rfl]
  rw [State.pace, hyear]
  rfl

theorem Failure.eq_of_stepFailure {s : State} {e : Failure} (h : e = s.stepFailure) :
    e = .stepLimit ∨ ∃ f, e = .fault f := by
  rw [h, State.stepFailure]
  split
  · exact .inl rfl
  next f _ => exact .inr ⟨f, rfl⟩

theorem State.stepFailure_of_error {s : State} {f : Fault} (h : s.pace = .error f) :
    .fault f = s.stepFailure := by
  rw [stepFailure, h]

section

variable {α : Type} {Q : State → Prop} {E : Failure → State → Prop} {s t : State}

/-- A calculation and what follows it. -/
theorem ends_calculation {r : Except Fault α} {f : α → Run Unit}
    (herror : ∀ e, r = .error e → E (.fault e) t) (hok : ∀ a, r = .ok a → Ends Q E ((f a).run.run t)) :
    Ends Q E ((Run.ofExcept (ofFault r) >>= f).run.run t) := by
  cases r with
  | error e => exact herror e rfl
  | ok a => exact hok a rfl

theorem ends_limit (ht : Stepped s t) (hpace : t.pace = .ok ()) :
    Ends (fun t => Stepped s t ∧ s.steps + 1 ≤ s.settings.stepLimit)
      (fun e t => Stepped s t ∧ e = t.stepFailure)
      ((do if s.settings.stepLimit < (s.steps + 1 : Nat) then throw .stepLimit : Run Unit).run.run t) := by
  by_cases hover : s.settings.stepLimit < (s.steps + 1 : Nat)
  · rw [if_pos hover]
    refine ⟨ht, ?_⟩
    rw [State.stepFailure, hpace]
  · rw [if_neg hover]
    exact ⟨ht, by omega⟩

end

/-- A step comes to its end within the limit only. If it fails, the state in which it does so tells the
failure: a year that has gone on is a number, and would go on again. -/
theorem ends_tick (s : State) :
    Ends (fun t => Stepped s t ∧ s.steps + 1 ≤ s.settings.stepLimit)
      (fun e t => Stepped s t ∧ e = t.stepFailure) (tick.run.run s) := by
  let counted : State := { s with steps := s.steps + 1 }
  have hcounted : Stepped s counted := .count
  rw [tick, run_modify_bind, run_get_bind]
  refine ends_calculation (fun f hyear => ⟨hcounted, State.stepFailure_of_error ?_⟩) fun year hyear => ?_
  · rw [State.pace, hyear]
    rfl
  obtain ⟨y, rfl⟩ := exists_float_of_add hyear
  have hstepped : Stepped s (counted.setGlobal "tahun" (.float y)) := .year _ hcounted
  have hpace := counted.pace_setGlobal y
  rw [run_modify_bind]
  refine ends_calculation (fun f hlate => ⟨hstepped, State.stepFailure_of_error ?_⟩) fun late hlate => ?_
  · rw [hpace, hlate]
    rfl
  have hlate : s.settings.delay.greater (.int 0) = .ok late := hlate
  rw [hlate] at hpace
  cases late with
  | false => exact ends_limit hstepped hpace
  | true =>
    dsimp only
    rw [if_pos rfl, wait, bind_assoc]
    refine ends_calculation (fun f hwait => ⟨hstepped, State.stepFailure_of_error ?_⟩) fun u hwait => ?_
    · exact hpace.trans hwait
    · exact ends_limit (.wait _ hstepped) (hpace.trans hwait)

theorem leads_tick {P : State → Prop} {E : Failure → State → Prop} (hfail : ∀ e s, P s → E e s)
    (hsteps : ∀ s steps, P s → P { s with steps })
    (hyear : ∀ s v, P s → P (s.setGlobal "tahun" v))
    (hwaits : ∀ s waits, P s → P { s with waits }) : Leads P P E tick := by
  intro s hs
  have hstepped {t : State} (ht : Stepped s t) : P t := by
    induction ht with
    | count => exact hsteps s _ hs
    | year v _ ih => exact hyear _ v ih
    | wait waits _ ih => exact hwaits _ waits ih
  exact (ends_tick s).imp (fun _ ht => hstepped ht.1) fun e t ht => hfail e t (hstepped ht.1)

/-! ## Assertions -/

/-- Assertions that every part of execution respects. -/
structure Regime {ι : Type} (I : ι → Watch → Prop) (E : ι → Failure → Watch → Prop) : Prop where
  fails : ∀ {i w} (e : Failure), I i w → E i e w
  start : ∀ {i s l} (stmt : Stmt), I i ⟨s, l⟩ → I i ⟨s, .start stmt s :: l⟩
  reprint : ∀ {i s l} (printed : Array String), I i ⟨s, l⟩ → I i ⟨{ s with printed }, l⟩
  redefine : ∀ {i s l} (procedures : Table String (List Stmt)),
    I i ⟨s, l⟩ → I i ⟨{ s with procedures }, l⟩
  recharge : ∀ {i s l} (embezzled : Value), I i ⟨s, l⟩ → I i ⟨{ s with embezzled }, l⟩
  set : ∀ {i s l} (name : String) (v : Value), I i ⟨s, l⟩ → I i ⟨s.set name v, l⟩
  setGlobal : ∀ {i s l} {name : String} (v : Value), name ∈ predefined →
    I i ⟨s, l⟩ → I i ⟨s.setGlobal name v, l⟩
  tick : ∀ i l, Leads (I i ⟨·, l⟩) (I i ⟨·, l⟩) (E i · ⟨·, l⟩) tick
  scope : ∀ {i s l}, I i ⟨s, l⟩ → ∃ j, I j ⟨s.push, l⟩ ∧
    (∀ {t k}, I j ⟨t, k⟩ → I i ⟨t.pop, k⟩) ∧ ∀ {e w}, E j e w → E i e w
  attempt : ∀ {i w}, I i w → ∃ j, I j w ∧ (∀ {w'}, I j w' → I i w') ∧
    ∀ {e t k}, E j e ⟨t, k⟩ →
      E i e ⟨t, k⟩ ∧ (e.recoverable → I i ⟨t, .recovery w.state e t :: k⟩)

section Rules

variable {α : Type} {P Q : Watch → Prop} {E : Failure → Watch → Prop}

theorem leads_unwatched {x : Run α}
    (h : ∀ l, Leads (P ⟨·, l⟩) (Q ⟨·, l⟩) (E · ⟨·, l⟩) x) : Leads P Q E (unwatched x) := by
  intro w hw
  have hx := h w.events w.state hw
  rw [run_unwatched]
  generalize x.run.run w.state = outcome at hx
  obtain ⟨e | a, s⟩ := outcome <;> exact hx

theorem leads_watchedTimes {x : Watched Unit} (hx : Leads P P E x) :
    (n : Nat) → Leads P P E (watchedTimes x n)
  | 0 => .pure ()
  | n + 1 => hx.bind fun _ => leads_watchedTimes hx n

theorem leads_trace {P : State → Prop} {E : Failure → State → Prop}
    (hprint : ∀ s printed, P s → P { s with printed }) (line : Nat) (title : String) :
    Leads P P E (trace line title) :=
  .get fun _ _ => .ite (.modify fun s => hprint s _) (.pure ())

/-- What a watched run comes to, the run itself comes to. -/
theorem Erases.ends {x : Watched α} {y : Run α} (h : Erases x y) (hx : Leads P Q E x) {s : State}
    (hs : P { state := s }) :
    Ends (Q ⟨·, x.events s⟩) (E · ⟨·, x.events s⟩) (y.run.run s) := by
  have hends := hx { state := s } hs
  rw [← h { state := s }, Watched.events]
  generalize x.run.run { state := s } = outcome at hends ⊢
  obtain ⟨e | a, w⟩ := outcome <;> exact hends

end Rules

section Regime

variable {α ι : Type} {I : ι → Watch → Prop} {E : ι → Failure → Watch → Prop} {i : ι}

/-- An action on the state respects the assertions, whatever has happened before. -/
def Respects (I : ι → Watch → Prop) (E : ι → Failure → Watch → Prop) (i : ι) (x : Run α) : Prop :=
  ∀ l, Leads (I i ⟨·, l⟩) (I i ⟨·, l⟩) (E i · ⟨·, l⟩) x

namespace Regime

theorem respects_ofExcept (h : Regime I E) (r : Except Failure α) :
    Respects I E i (Run.ofExcept r) := by
  intro l
  cases r with
  | ok a => exact .pure a
  | error e => exact .throw fun _ hs => h.fails e hs

theorem respects_print (h : Regime I E) (line : String) : Respects I E i (print line) :=
  fun _ => .modify fun _ hs => h.reprint _ hs

theorem respects_setGlobal (h : Regime I E) {name : String} (hn : name ∈ predefined) (v : Value) :
    Respects I E i (modify (·.setGlobal name v)) :=
  fun _ => .modify fun _ hs => h.setGlobal v hn hs

theorem respects_trace (h : Regime I E) (line : Nat) (title : String) :
    Respects I E i (trace line title) :=
  fun _ => leads_trace (fun _ _ => h.reprint _) line title

theorem respects_evaluate (h : Regime I E) (expr : String) : Respects I E i (evaluate expr) :=
  fun l => .get fun _ _ => h.respects_ofExcept _ l

theorem respects_evaluateFloat (h : Regime I E) (expr : String) :
    Respects I E i (evaluateFloat expr) :=
  fun l => (h.respects_evaluate expr l).bind fun _ => h.respects_ofExcept _ l

theorem respects_advance (h : Regime I E) (delta : Value) : Respects I E i (advance delta) := by
  intro l
  refine .get fun s _ => (h.respects_ofExcept _ l).bind fun sum => ?_
  exact (h.respects_ofExcept _ l).bind fun small => h.respects_setGlobal (by decide) _ l

theorem respects_embezzle (h : Regime I E) (percent : Value) :
    Respects I E i (embezzle percent) := by
  intro l
  have hcalc {β : Type} (r : Except Failure β) := h.respects_ofExcept (i := i) r l
  have hbudget (v : Value) : Respects I E i (modify (·.setGlobal "anggaran" v)) :=
    h.respects_setGlobal (by decide) v
  have htotal (v : Value) : Respects I E i (modify fun s => { s with embezzled := v }) :=
    fun _ => .modify fun _ hs => h.recharge v hs
  have hspent : Respects I E i (throw .fundsExhausted : Run Unit) :=
    fun _ => .throw fun _ hs => h.fails _ hs
  refine .get fun _ _ => (hcalc _).bind fun source => (hcalc _).bind fun budget => ?_
  refine (hcalc _).bind fun share => (hbudget _ l).bind fun _ => .get fun _ _ => ?_
  refine (hcalc _).bind fun total => (htotal total l).bind fun _ => ?_
  have hflag : Respects I E i (do
      if (← get).settings.challenge then
        let whole ← Run.ofExcept (ofFault (do Number.intOfFloat (← total.asFloat)))
        if Int.fmod whole 424242 = 0 then print challengeFlag
      return budget * share) := by
    intro l
    refine .get fun _ _ => .ite ?_ (.pure _)
    refine (h.respects_ofExcept _ l).bind fun whole => .ite ?_ (.pure _)
    exact (h.respects_print _ l).bind fun _ => .pure _
  exact .ite ((hspent l).bind fun _ => hflag l) (hflag l)

/-- The statements without parts. -/
theorem respects_execute (h : Regime I E) {stmt : Stmt}
    (hstmt : stmt matches .procedure .. | .assign .. | .report .. | .embezzle .. | .stall .. | .unknown ..) :
    Respects I E i (execute 1 stmt) := by
  intro l
  have htick := h.tick i l
  refine (h.respects_trace _ _ l).bind fun _ => ?_
  cases stmt with
  | procedure line name body => exact .modify fun _ hs => h.redefine _ hs
  | assign line name expr =>
    have hset (v : Value) : Respects I E i (modify (·.set name v)) :=
      fun _ => .modify fun _ hs => h.set name v hs
    refine htick.bind fun _ => (h.respects_evaluate expr l).bind fun v => ?_
    exact (hset v l).bind fun _ => h.respects_advance _ l
  | report line expr =>
    exact htick.bind fun _ => (h.respects_evaluate expr l).bind fun v => h.respects_print _ l
  | embezzle line expr =>
    refine htick.bind fun _ => (h.respects_evaluateFloat expr l).bind fun percent => ?_
    refine (h.respects_embezzle _ l).bind fun amount => (h.respects_ofExcept _ l).bind fun whole => ?_
    exact h.respects_print _ l
  | stall line info =>
    refine htick.bind fun _ => (h.respects_evaluate info l).bind fun v => ?_
    exact (h.respects_print _ l).bind fun _ => .throw fun _ hs => h.fails _ hs
  | unknown line => exact .throw fun _ hs => h.fails _ hs
  | _ => cases hstmt

theorem leads_inScope (h : Regime I E) {x : Watched Unit} (hx : ∀ j, Leads (I j) (I j) (E j) x) :
    Leads (I i) (I i) (E i) (inScope x) := by
  intro w hw
  obtain ⟨j, hopen, hclose, hfail⟩ := h.scope hw
  have hbody : Leads (I j) (I j) (E i) x := (hx j).imp_error fun _ _ => hfail
  exact hbody.bind (fun _ => leads_unwatched fun l => .modify fun _ => hclose) _ hopen

/-- An attempt goes on from a failure as far as the assertions allow it. -/
theorem leads_attempt (h : Regime I E) {x y : Watched Unit} (hx : ∀ j, Leads (I j) (I j) (E j) x)
    (hy : Leads (I i) (I i) (E i) y) :
    Leads (I i) (I i) (E i) (do
      let began := (← get).state
      tryCatch x fun e => do
        if e.recoverable then
          note (.recovery began e)
          unwatched (print ("⚠️  Exception: " ++ e.message))
          y
        else throw e) := by
  intro w hw
  obtain ⟨j, hj, hok, hfail⟩ := h.attempt hw
  have hbody := hx j w hj
  rw [run_get_bind]
  cases hrun : x.run.run w with
  | mk r w' =>
    rw [hrun] at hbody
    cases r with
    | ok a =>
      rw [run_tryCatch_of_ok _ hrun]
      exact hok hbody
    | error e =>
      obtain ⟨hE, hrecover⟩ := hfail hbody
      rw [run_tryCatch_of_error _ hrun]
      by_cases he : e.recoverable
      · rw [if_pos he]
        exact (leads_unwatched (h.respects_print _)).bind (fun _ => hy) _ (hrecover he)
      · rw [if_neg he]
        exact hE

/-- Execution respects a regime. -/
theorem leads_observe (h : Regime I E) (depth : Nat) (stmt : Stmt) (i : ι) :
    Leads (I i) (I i) (E i) (observe depth stmt) := by
  -- On the depth, for all members of the family at once: a part may be executed under another one.
  induction depth generalizing stmt i with
  | zero => exact .throw fun _ hw => h.fails _ hw
  | succ depth ih =>
    have hall (body : List Stmt) (j : ι) : Leads (I j) (I j) (E j) (body.forM (observe depth)) :=
      .forM (fun stmt => ih stmt j) body
    have htrace (line : Nat) (title : String) := leads_unwatched (h.respects_trace (i := i) line title)
    have htick := leads_unwatched (h.tick i)
    refine .bind (.modify fun _ hw => h.start stmt hw) fun _ => ?_
    cases stmt with
    | block line body => exact (htrace _ _).bind fun _ => h.leads_inScope (hall body)
    | attempt line body recovery =>
      exact (htrace _ _).bind fun _ => h.leads_attempt (hall body) (hall recovery i)
    | meeting line count body =>
      refine (htrace _ _).bind fun _ => htick.bind fun _ => ?_
      refine (leads_unwatched (h.respects_evaluateFloat count)).bind fun n => ?_
      refine (leads_unwatched (h.respects_ofExcept _)).bind fun n => ?_
      exact leads_watchedTimes (hall body i) n.toNat
    | call line name =>
      refine (htrace _ _).bind fun _ => .get fun w _ => ?_
      cases w.state.procedures.get? name with
      | none => exact .throw fun _ hw => h.fails _ hw
      | some body => exact h.leads_inScope (hall body)
    | branch line condition body otherwise =>
      refine (htrace _ _).bind fun _ => htick.bind fun _ => ?_
      exact (leads_unwatched (h.respects_evaluate condition)).bind fun v => hall _ i
    | _ => exact leads_unwatched (h.respects_execute rfl)

theorem leads_program (h : Regime I E) (depth : Nat) (p : Program) (i : ι) :
    Leads (I i) (I i) (E i) (p.observe depth) :=
  (leads_unwatched (h.respects_trace 1 "Program")).bind fun _ =>
    .forM (fun stmt => h.leads_observe depth stmt i) p.body

end Regime

end Regime

end Birokrasi.Structured
