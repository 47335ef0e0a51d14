import Birokrasi.Proofs.WatchedRuns

/-!
# Scopes

Names are written in the innermost scope, and a failure leaves the scopes open that it finds. A block or a
call still cannot reach the scopes around it: all that it writes goes to the scope that it opens, or to one
inside that scope, and there is never a `pop` too many (`scopes_isolated`).

There may be too few of them. An attempt that takes a failure over goes on in the scope in which the failure
was raised, so that the scopes after a statement are as many as before it only if no failure was taken over
inside a scope that the attempt had not begun in (`scopes_balanced_iff`).
-/

namespace Birokrasi.Structured

/-! ## Isolation -/

namespace State

/-- The global scope without the names that the interpreter looks after itself. -/
def ownGlobal (s : State) : Scope := s.global.filter fun entry => entry.1 ∉ predefined

theorem ownGlobal_setGlobal (s : State) {name : String} (v : Value) (hn : name ∈ predefined) :
    (s.setGlobal name v).ownGlobal = s.ownGlobal := by
  unfold ownGlobal setGlobal
  induction s.global with
  | nil => simp [Table.put, hn]
  | cons entry rest ih =>
    obtain ⟨k, u⟩ := entry
    by_cases hk : k = name
    · subst hk
      simp [Table.put, hn]
    · rw [Table.put, if_neg hk, List.filter_cons, List.filter_cons, ih]

theorem length_scopes (s : State) : s.scopes.length = s.locals.length + 1 := by
  rw [scopes, List.length_cons, List.length_reverse]

end State

/-- The scopes of `s` are there in `t`, perhaps with others inside them. Only the predefined names in the
global scope may have changed. -/
structure Isolated (s t : State) : Prop where
  depth : s.scopes.length ≤ t.scopes.length
  inner : ∀ i, 0 < i → i < s.scopes.length → t.scopes[i]? = s.scopes[i]?
  global : t.ownGlobal = s.ownGlobal

/-- The scopes `base` are there, perhaps with others inside them, and the global scope is `own`. -/
def Above (base : List Scope) (own : Scope) (s : State) : Prop :=
  base <:+ s.locals ∧ s.ownGlobal = own

/-- There is a scope that is not in `base`, so that names are not written in `base`. -/
def Inside (base : List Scope) (own : Scope) (s : State) : Prop :=
  ∃ scope, Above (scope :: base) own s

section

variable {base : List Scope} {own : Scope} {s t : State}

theorem isolated_of_above (h : Above s.locals s.ownGlobal t) : Isolated s t := by
  obtain ⟨⟨front, hfront⟩, hown⟩ := h
  refine ⟨?_, fun i hpos hi => ?_, hown⟩
  · rw [State.length_scopes, State.length_scopes, ← hfront, List.length_append]
    omega
  · obtain ⟨i, rfl⟩ : ∃ j, i = j + 1 := ⟨i - 1, by omega⟩
    rw [State.length_scopes] at hi
    rw [State.scopes, State.scopes, List.getElem?_cons_succ, List.getElem?_cons_succ, ← hfront,
      List.reverse_append, List.getElem?_append_left (by rw [List.length_reverse]; omega)]

theorem Above.setGlobal (h : Above base own s) {name : String} (hn : name ∈ predefined) (v : Value) :
    Above base own (s.setGlobal name v) :=
  ⟨h.1, (State.ownGlobal_setGlobal s v hn).trans h.2⟩

theorem exists_cons_suffix {α : Type} (front base : List α) (a : α) :
    ∃ b, b :: base <:+ a :: (front ++ base) := by
  induction front generalizing a with
  | nil => exact ⟨a, List.suffix_rfl⟩
  | cons c front ih =>
    obtain ⟨b, hb⟩ := ih c
    exact ⟨b, hb.trans (List.suffix_cons a _)⟩

theorem Above.push (h : Above base own s) : Inside base own s.push := by
  obtain ⟨⟨front, hfront⟩, hown⟩ := h
  obtain ⟨scope, hscope⟩ := exists_cons_suffix front base []
  rw [hfront] at hscope
  exact ⟨scope, hscope, hown⟩

theorem Inside.above (h : Inside base own s) : Above base own s := by
  obtain ⟨scope, hbase, hown⟩ := h
  exact ⟨(List.suffix_cons scope base).trans hbase, hown⟩

theorem Inside.above_pop (h : Inside base own s) : Above base own s.pop := by
  obtain ⟨scope, ⟨front, hfront⟩, hown⟩ := h
  refine ⟨?_, hown⟩
  rw [State.pop, ← hfront]
  cases front with
  | nil => exact List.suffix_rfl
  | cons inner front => exact ⟨front ++ [scope], List.append_assoc front [scope] base⟩

theorem Inside.set (h : Inside base own s) (name : String) (v : Value) :
    Inside base own (s.set name v) := by
  obtain ⟨scope, ⟨front, hfront⟩, hown⟩ := h
  unfold State.set
  rw [← hfront]
  -- The innermost scope is the one above the base, or a scope further in.
  cases front with
  | nil => exact ⟨scope.put name v, List.suffix_rfl, hown⟩
  | cons inner front => exact ⟨scope, ⟨inner.put name v :: front, rfl⟩, hown⟩

end

/-- Execution that has begun inside of the base stays there: it pops only what it has pushed. -/
theorem regime_inside : Regime (fun i w => Inside i.1 i.2 w.state)
    (fun (i : List Scope × Scope) _ w => Inside i.1 i.2 w.state) where
  fails _ h := h
  start _ h := h
  reprint _ h := h
  redefine _ h := h
  recharge _ h := h
  set name v h := h.set name v
  setGlobal v hn h := h.imp fun _ hscope => hscope.setGlobal hn v
  tick _ _ := leads_tick (fun _ _ h => h) (fun _ _ h => h)
    (fun s v h => h.imp fun _ hscope => hscope.setGlobal (by decide) v) (fun _ _ h => h)
  scope {i s _} := by
    rintro ⟨scope, hbase, hown⟩
    refine ⟨(s.locals, i.2), Above.push ⟨List.suffix_rfl, hown⟩, fun ht => ?_, fun ht => ?_⟩
    · exact ⟨scope, hbase.trans ht.above_pop.1, ht.above_pop.2⟩
    · exact ⟨scope, hbase.trans ht.above.1, ht.above.2⟩
  attempt {i _} h := ⟨i, h, fun h' => h', fun h' => ⟨h', fun _ => h'⟩⟩

section

variable {base : List Scope} {own : Scope}

theorem leads_execute_inside (depth : Nat) (stmt : Stmt) :
    Leads (Inside base own) (Inside base own) (fun _ => Inside base own) (execute depth stmt) :=
  fun _ hs => (erases_observe depth stmt).ends (regime_inside.leads_observe depth stmt (base, own)) hs

theorem leads_scoped_above (depth : Nat) (body : List Stmt) :
    Leads (Above base own) (Above base own) (fun _ => Above base own) (do
      modify State.push
      body.forM (execute depth)
      modify State.pop) := by
  have hbody : Leads (Inside base own) (Inside base own) (fun _ => Inside base own)
      (body.forM (execute depth)) := .forM (leads_execute_inside depth) body
  refine .bind (.modify fun _ h => h.push) fun _ => ?_
  exact (hbody.imp_error fun _ _ h => h.above).bind fun _ => .modify fun _ h => h.above_pop

end

/-- Blocks and calls leave the scopes around them alone, also if they fail. -/
theorem scopes_isolated (depth : Nat) (s : State) :
    (∀ line body, Isolated s ((execute depth (.block line body)).run.run s).2) ∧
      ∀ line name, Isolated s ((execute depth (.call line name)).run.run s).2 := by
  have hisolated {x : Run Unit} (hx : Leads (Above s.locals s.ownGlobal) (Above s.locals s.ownGlobal)
      (fun _ => Above s.locals s.ownGlobal) x) : Isolated s (x.run.run s).2 :=
    isolated_of_above (hx s ⟨List.suffix_rfl, rfl⟩).state
  cases depth with
  | zero => exact ⟨fun _ _ => hisolated (.throw fun _ h => h), fun _ _ => hisolated (.throw fun _ h => h)⟩
  | succ depth =>
    refine ⟨fun line body => hisolated ?_, fun line name => hisolated ?_⟩
    · exact (leads_trace (fun _ _ h => h) _ _).bind fun _ => leads_scoped_above depth body
    · refine (leads_trace (fun _ _ h => h) _ _).bind fun _ => .get fun t _ => ?_
      cases t.procedures.get? name with
      | none => exact .throw fun _ h => h
      | some body => exact leads_scoped_above depth body

/-! ## Balance -/

/-- A failure is taken over in a scope as deep as the one in which the attempt began. -/
def Event.Level : Event → Prop
  | .start .. => True
  | .recovery began _ failed => failed.scopes.length = began.scopes.length

instance : DecidablePred Event.Level
  | .start .. => .isTrue trivial
  | .recovery began _ failed => inferInstanceAs (Decidable (failed.scopes.length = began.scopes.length))

/-- Since the events `past`, when there were `n` local scopes, more have been opened than closed unless
there was nothing but `Level` events. -/
structure Counted (n : Nat) (past : List Event) (s : State) (events : List Event) : Prop where
  deep : n ≤ s.locals.length
  level : ∃ recent, events = recent ++ past ∧ (s.locals.length = n ↔ ∀ event ∈ recent, event.Level)

/-- The same after a failure, which may have left scopes open itself. -/
structure CountedOut (n : Nat) (past : List Event) (s : State) (events : List Event) : Prop where
  deep : n ≤ s.locals.length
  level : ∃ recent, events = recent ++ past ∧ (s.locals.length = n → ∀ event ∈ recent, event.Level)

section

variable {n : Nat} {past events events' : List Event} {s s' : State}

theorem Counted.out (h : Counted n past s events) : CountedOut n past s events := by
  obtain ⟨recent, hevents, hlevel⟩ := h.level
  exact ⟨h.deep, recent, hevents, hlevel.1⟩

theorem counted_self (s : State) (events : List Event) : Counted s.locals.length events s events :=
  ⟨Nat.le_refl _, [], rfl, by simp⟩

theorem Counted.congr (h : Counted n past s events) (hs : s'.locals.length = s.locals.length) :
    Counted n past s' events where
  deep := hs ▸ h.deep
  level := hs ▸ h.level

theorem Counted.start (h : Counted n past s events) (stmt : Stmt) :
    Counted n past s (.start stmt s :: events) := by
  obtain ⟨recent, rfl, hlevel⟩ := h.level
  exact ⟨h.deep, .start stmt s :: recent, rfl, by simpa [Event.Level] using hlevel⟩

theorem Counted.push (h : Counted n past s events) : Counted (n + 1) past s.push events := by
  obtain ⟨recent, hevents, hlevel⟩ := h.level
  exact ⟨Nat.succ_le_succ h.deep, recent, hevents, Nat.succ_inj.trans hlevel⟩

theorem Counted.pop (h : Counted (n + 1) past s events) : Counted n past s.pop events := by
  have hdeep := h.deep
  have hlength : s.pop.locals.length = s.locals.length - 1 := List.length_tail
  obtain ⟨recent, hevents, hlevel⟩ := h.level
  refine ⟨by omega, recent, hevents, ?_⟩
  rw [← hlevel, hlength]
  omega

theorem CountedOut.outer (h : CountedOut (n + 1) past s events) : CountedOut n past s events := by
  have hdeep := h.deep
  obtain ⟨recent, hevents, -⟩ := h.level
  exact ⟨by omega, recent, hevents, fun heq => by omega⟩

/-- What is counted from some events on adds up with what was counted until then. -/
theorem Counted.trans (h : Counted n past s events)
    (h' : Counted s.locals.length events s' events') : Counted n past s' events' := by
  have hdeep := h.deep
  have hdeep' := h'.deep
  obtain ⟨before, rfl, hbefore⟩ := h.level
  obtain ⟨recent, rfl, hrecent⟩ := h'.level
  refine ⟨by omega, recent ++ before, (List.append_assoc _ _ _).symm, ?_⟩
  rw [List.forall_mem_append, ← hbefore, ← hrecent]
  omega

theorem Counted.trans_out (h : Counted n past s events)
    (h' : CountedOut s.locals.length events s' events') : CountedOut n past s' events' := by
  have hdeep := h.deep
  have hdeep' := h'.deep
  obtain ⟨before, rfl, hbefore⟩ := h.level
  obtain ⟨recent, rfl, hrecent⟩ := h'.level
  refine ⟨by omega, recent ++ before, (List.append_assoc _ _ _).symm, fun heq => ?_⟩
  exact List.forall_mem_append.2 ⟨hrecent (by omega), hbefore.1 (by omega)⟩

/-- To take a failure over is an event, and with it the count is exact again. -/
theorem CountedOut.recover (e : Failure) (h : CountedOut s.locals.length past s' events) :
    Counted s.locals.length past s' (.recovery s e s' :: events) := by
  obtain ⟨recent, rfl, hlevel⟩ := h.level
  refine ⟨h.deep, .recovery s e s' :: recent, rfl, ?_⟩
  rw [List.forall_mem_cons, Event.Level, State.length_scopes, State.length_scopes, Nat.succ_inj]
  exact ⟨fun heq => ⟨heq, hlevel heq⟩, And.left⟩

end

theorem State.length_locals_set (s : State) (name : String) (v : Value) :
    (s.set name v).locals.length = s.locals.length := by
  unfold State.set
  split
  · rfl
  next hlocals => rw [hlocals]; rfl

theorem regime_counted : Regime (fun i w => Counted i.1 i.2 w.state w.events)
    (fun (i : Nat × List Event) _ w => CountedOut i.1 i.2 w.state w.events) where
  fails _ h := h.out
  start stmt h := h.start stmt
  reprint _ h := h.congr rfl
  redefine _ h := h.congr rfl
  recharge _ h := h.congr rfl
  set name v h := h.congr (State.length_locals_set _ name v)
  setGlobal _ _ h := h.congr rfl
  tick _ _ := leads_tick (fun _ _ h => h.out) (fun _ _ h => h.congr rfl) (fun _ _ h => h.congr rfl)
    (fun _ _ h => h.congr rfl)
  scope {i _ _} h := ⟨(i.1 + 1, i.2), h.push, fun h' => h'.pop, fun h' => h'.outer⟩
  attempt {_ w} h := ⟨(w.state.locals.length, w.events), counted_self w.state w.events,
    fun h' => h.trans h', fun h' => ⟨h.trans_out h', fun _ => h.trans (h'.recover _)⟩⟩

/-- A name is written in the innermost scope. -/
theorem State.scopes_set (s : State) (name : String) (v : Value) :
    (s.set name v).scopes = s.scopes.modify (s.scopes.length - 1) (·.put name v) := by
  rw [State.length_scopes, Nat.add_sub_cancel]
  unfold State.set State.scopes
  split
  next hlocals => simp [hlocals]
  next scope rest hlocals => simp [hlocals, List.modify_eq_take_drop]

/-- A statement closes the scopes that it opens, and names are written where they were written before, if
and only if every failure taken over in it was raised in a scope as deep as its attempt. There are more
scopes otherwise. -/
theorem scopes_balanced_iff {depth : Nat} {stmt : Stmt} {s s' : State}
    (h : (execute depth stmt).run.run s = (.ok (), s')) :
    s.scopes.length ≤ s'.scopes.length ∧
      (s'.scopes.length = s.scopes.length ↔ ∀ event ∈ (observe depth stmt).events s, event.Level) ∧
      (s'.scopes.length = s.scopes.length → ∀ name v,
        (s'.set name v).scopes = s'.scopes.modify (s.scopes.length - 1) (·.put name v)) := by
  have hcounted : Counted s.locals.length [] s' ((observe depth stmt).events s) := by
    have hends := (erases_observe depth stmt).ends
      (regime_counted.leads_observe depth stmt (s.locals.length, [])) (counted_self s [])
    rw [h] at hends
    exact hends
  obtain ⟨recent, hevents, hlevel⟩ := hcounted.level
  rw [List.append_nil] at hevents
  refine ⟨?_, ?_, fun heq name v => ?_⟩
  · rw [State.length_scopes, State.length_scopes]
    exact Nat.succ_le_succ hcounted.deep
  · rw [State.length_scopes, State.length_scopes, Nat.succ_inj, hlevel, hevents]
  · rw [State.scopes_set, heq]

/-- A failure in the scope of its attempt, and a scope opened to recover from it. -/
def sheltered : Stmt := .block 1 [.attempt 2 [.call 3 "hantu"] [.block 5 []]]

theorem scopes_balanced_iff_sheltered :
    ((execute 4 sheltered).run.run {}).1 = .ok () ∧
      ((execute 4 sheltered).run.run {}).2.scopes.length = 1 := by
  have hrun : (execute 4 sheltered).run.run {} =
      (.ok (), ((execute 4 sheltered).run.run {}).2) := rfl
  exact ⟨rfl, (scopes_balanced_iff hrun).2.1.2 (by decide)⟩

/-- A failure in a block that its attempt has opened. -/
def stranded : Stmt := .attempt 1 [.block 2 [.call 3 "hantu"]] []

/-- The block of a failure that is taken over stays open. -/
theorem scopes_not_balanced :
    ((execute 4 stranded).run.run {}).1 = .ok () ∧
      ((execute 4 stranded).run.run {}).2.scopes.length = ({} : State).scopes.length + 1 :=
  ⟨rfl, rfl⟩

end Birokrasi.Structured
