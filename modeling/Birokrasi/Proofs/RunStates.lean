import Mathlib.Data.List.Forall2
import Birokrasi.Proofs.GuardedRounds

/-!
# The states of a run

A run goes by rounds, from one state to the next (`Course`). Its states are those in which a round
begins and the one in which it ends, be it by a failure. A property that a round keeps holds in all of
them (`Course.forall_states`); two courses whose rounds match go through related states and come to
matched ends (`Course.lockstep`).

Both machines are courses. The guard of a machine touches no more than the steps, the output and the
code of the machine inside. What these do not matter to (`Aloof`) a round keeps if its operation does,
and what all operations keep lasts through the runs of both (`Lasting`).
-/

namespace Birokrasi

/-! ## Courses -/

/-- A way to go on by rounds: a round that is made where one is due says whether another may follow. -/
structure Course (ε σ : Type) where
  due : σ → Bool
  round : ExceptT ε (StateM σ) Bool

namespace Course

variable {ε ε' σ τ : Type}

/-- Rounds until one is not due or says that none follows; at most `rounds` of them. -/
def loop (c : Course ε σ) : (rounds : Nat) → σ → Except ε Unit × σ
  | 0, s => (.ok (), s)
  | rounds + 1, s =>
    if c.due s then
      match c.round.run.run s with
      | (.ok true, s) => c.loop rounds s
      | (.ok false, s) => (.ok (), s)
      | (.error e, s) => (.error e, s)
    else (.ok (), s)

/-- The states in which rounds begin. -/
def begun (c : Course ε σ) : (rounds : Nat) → σ → List σ
  | 0, _ => []
  | rounds + 1, s =>
    if c.due s then
      s :: match c.round.run.run s with
        | (.ok true, s) => c.begun rounds s
        | _ => []
    else []

/-- The states in which rounds begin, and the last one. -/
def states (c : Course ε σ) (rounds : Nat) (s : σ) : List σ :=
  c.begun rounds s ++ [(c.loop rounds s).2]

/-- What the rounds of a course keep, each from the state in which it begins, holds in all states. -/
theorem forall_states_of_begun {c : Course ε σ} {P : σ → Prop} (rounds : Nat) {s : σ}
    (h : ∀ t ∈ c.begun rounds s, P t → P (c.round.run.run t).2) (hs : P s) :
    ∀ t ∈ c.states rounds s, P t := by
  simp only [states, List.forall_mem_append, List.forall_mem_singleton]
  induction rounds generalizing s with
  | zero => exact ⟨nofun, hs⟩
  | succ rounds ih =>
    rw [begun] at h
    rw [begun, loop]
    split
    next hdue =>
      rw [if_pos hdue, List.forall_mem_cons] at h
      rw [List.forall_mem_cons]
      obtain ⟨hround, hrest⟩ := h
      have hnext := hround hs
      generalize c.round.run.run s = outcome at hnext hrest
      obtain ⟨e | more, t⟩ := outcome
      · exact ⟨⟨hs, nofun⟩, hnext⟩
      · cases more with
        | false => exact ⟨⟨hs, nofun⟩, hnext⟩
        | true => exact ⟨⟨hs, (ih hrest hnext).1⟩, (ih hrest hnext).2⟩
    · exact ⟨nofun, hs⟩

/-- What every round keeps holds in all states. -/
theorem forall_states {c : Course ε σ} {P : σ → Prop} (h : Keeps P c.round) (rounds : Nat) {s : σ}
    (hs : P s) : ∀ t ∈ c.states rounds s, P t :=
  forall_states_of_begun rounds (fun t _ => h t) hs

theorem states_zero (c : Course ε σ) (s : σ) : c.states 0 s = [s] := rfl

theorem states_succ (c : Course ε σ) (rounds : Nat) (s : σ) :
    c.states (rounds + 1) s =
      if c.due s then
        s :: match c.round.run.run s with
          | (.ok true, t) => c.states rounds t
          | (_, t) => [t]
      else [s] := by
  rw [states, begun, loop]
  split
  · obtain ⟨e | more, t⟩ := c.round.run.run s
    · rfl
    · cases more <;> rfl
  · rfl

/-- What rounds keep of a state and the states before it holds of every state of a run and those
before it. -/
theorem states_induction {c : Course ε σ} {P : List σ → σ → Prop}
    (hround : ∀ past t, P past t → c.due t → P (past ++ [t]) (c.round.run.run t).2) (rounds : Nat)
    {s t : σ} {past later : List σ} (hs : P [] s) (h : c.states rounds s = past ++ t :: later) :
    P past t := by
  -- For a run that goes on, the states before its first one are `earlier`.
  suffices hgoing : ∀ earlier, P earlier s → P (earlier ++ past) t from hgoing [] hs
  clear hs
  have hlast {u : σ} {past : List σ} (h : [u] = past ++ t :: later) : past = [] ∧ u = t := by
    cases past <;> simp_all
  intro earlier hs
  induction rounds generalizing s earlier past with
  | zero =>
    rw [states_zero] at h
    obtain ⟨rfl, rfl⟩ := hlast h
    rwa [List.append_nil]
  | succ rounds ih =>
    rw [states_succ] at h
    cases past with
    | nil =>
      have heq : s = t := by
        split at h
        · exact (List.cons.inj h).1
        · exact (List.cons.inj h).1
      rwa [← heq, List.append_nil]
    | cons first past =>
      split at h
      next hdue =>
        obtain ⟨rfl, hrest⟩ := List.cons.inj h
        have hnext := hround earlier s hs hdue
        rw [List.append_cons]
        generalize c.round.run.run s = outcome at hrest hnext
        obtain ⟨e | more, u⟩ := outcome
        · obtain ⟨rfl, rfl⟩ := hlast hrest
          rwa [List.append_nil]
        · cases more with
          | true => exact ih hrest _ hnext
          | false =>
            obtain ⟨rfl, rfl⟩ := hlast hrest
            rwa [List.append_nil]
      next => simp at h

theorem states_of_begun {c : Course ε σ} {rounds : Nat} {s t : σ} {past later : List σ}
    (h : c.begun rounds s = past ++ t :: later) :
    c.states rounds s = past ++ t :: (later ++ [(c.loop rounds s).2]) := by
  rw [states, h, List.append_assoc, List.cons_append]

/-- A run goes on from each state in which a round begins. -/
theorem begun_append {c : Course ε σ} (rounds : Nat) {s t : σ} {past later : List σ}
    (h : c.begun rounds s = past ++ t :: later) :
    ∃ left, c.due t = true ∧ c.begun (left + 1) t = t :: later ∧
      c.loop rounds s = c.loop (left + 1) t := by
  induction rounds generalizing s past with
  | zero => simp [begun] at h
  | succ rounds ih =>
    cases past with
    | nil =>
      have hdue : c.due s = true := by
        rw [begun] at h
        split at h
        · assumption
        · simp at h
      have heq : s = t := by
        rw [begun, if_pos hdue] at h
        exact (List.cons.inj h).1
      subst heq
      exact ⟨rounds, hdue, h, rfl⟩
    | cons first past =>
      rw [begun] at h
      rw [loop]
      split at h
      next hdue =>
        obtain ⟨rfl, hrest⟩ := List.cons.inj h
        rw [if_pos hdue]
        generalize c.round.run.run s = outcome at hrest
        obtain ⟨e | more, u⟩ := outcome
        · simp at hrest
        · cases more with
          | true => exact ih hrest
          | false => simp at hrest
      next => simp at h

/-- One more round begins, if at all, in the state that the others lead to. -/
theorem forall_begun_succ {c : Course ε σ} {P : σ → Prop} (rounds : Nat) {s : σ}
    (h : ∀ t ∈ c.begun rounds s, P t) (hlast : P (c.loop rounds s).2) :
    ∀ t ∈ c.begun (rounds + 1) s, P t := by
  induction rounds generalizing s with
  | zero =>
    rw [loop] at hlast
    rw [begun]
    split
    · rw [List.forall_mem_cons]
      refine ⟨hlast, ?_⟩
      obtain ⟨e | more, t⟩ := c.round.run.run s
      · simp
      · cases more <;> simp [begun]
    · simp
  | succ rounds ih =>
    rw [begun] at h ⊢
    rw [loop] at hlast
    split at hlast
    next hdue =>
      rw [if_pos hdue, List.forall_mem_cons] at h ⊢
      refine ⟨h.1, ?_⟩
      have hrest := h.2
      generalize c.round.run.run s = outcome at hlast hrest
      obtain ⟨e | more, t⟩ := outcome
      · simp
      · cases more with
        | false => simp
        | true => exact ih hrest hlast
    next hdue =>
      rw [if_neg hdue]
      simp

/-- Courses whose rounds match, at least from the states in which one of them begins a round, come to
matched ends through related states. -/
theorem lockstep {c : Course ε σ} {d : Course ε' τ} {E : ε → ε' → σ → τ → Prop}
    {R : σ → τ → Prop} (hdue : ∀ s t, R s t → c.due s = d.due t) (rounds : Nat) {s : σ} {t : τ}
    (h : ∀ s' ∈ c.begun rounds s, ∀ t', R s' t' →
      Matched E R (c.round.run.run s') (d.round.run.run t'))
    (hR : R s t) :
    Matched E R (c.loop rounds s) (d.loop rounds t) ∧
      List.Forall₂ R (c.begun rounds s) (d.begun rounds t) := by
  -- On the rounds: a round that goes on leads to related states, from which fewer rounds are left.
  induction rounds generalizing s t with
  | zero => exact ⟨.ok () hR, .nil⟩
  | succ rounds ih =>
    rw [begun] at h
    rw [loop, loop, begun, begun, ← hdue s t hR]
    split
    next hs =>
      rw [if_pos hs, List.forall_mem_cons] at h
      obtain ⟨hround, hrest⟩ := h
      have hmatch := hround t hR
      generalize c.round.run.run s = u at hmatch hrest
      generalize d.round.run.run t = v at hmatch
      cases hmatch with
      | error e e' hE => exact ⟨.error e e' hE, .cons hR .nil⟩
      | ok more hR' =>
        cases more with
        | false => exact ⟨.ok () hR', .cons hR .nil⟩
        | true => exact ⟨(ih hrest hR').1, .cons hR (ih hrest hR').2⟩
    · exact ⟨.ok () hR, .nil⟩

/-- If failures leave related states too, then so are all states on the way. -/
theorem lockstep_states {c : Course ε σ} {d : Course ε' τ} {R : σ → τ → Prop} (rounds : Nat) {s : σ}
    {t : τ} (hend : Matched (fun _ _ => R) R (c.loop rounds s) (d.loop rounds t))
    (hbegun : List.Forall₂ R (c.begun rounds s) (d.begun rounds t)) :
    List.Forall₂ R (c.states rounds s) (d.states rounds t) :=
  List.rel_append hbegun (.cons hend.rel .nil)

end Course

namespace Machine

/-! ## Machines -/

/-- How the plain machine runs. -/
def course (delay : Value) : Course Failure Machine where
  due m := m.pc < m.code.size
  round := round delay

/-- How the guarded machine runs. -/
def Guarded.course (delay : Value) : Course Failure Guarded where
  due g := g.core.pc < g.core.code.size
  round := Guarded.round delay

theorem loop_eq_course (delay : Value) (rounds : Nat) (m : Machine) :
    loop delay rounds m = (course delay).loop rounds m := by
  induction rounds generalizing m with
  | zero => rfl
  | succ rounds ih =>
    have hround : (course delay).round.run.run m = perform (round delay) m := rfl
    simp only [loop, Course.loop, hround, ih]
    simp only [course, decide_eq_true_eq]
    split
    · obtain ⟨e | more, m'⟩ := perform (round delay) m
      · rfl
      · cases more <;> rfl
    · rfl

theorem Guarded.loop_eq_course (delay : Value) (rounds : Nat) (g : Guarded) :
    Guarded.loop delay rounds g = (Guarded.course delay).loop rounds g := by
  induction rounds generalizing g with
  | zero => rfl
  | succ rounds ih =>
    simp only [Guarded.loop, Course.loop, ih]
    simp only [Guarded.course, decide_eq_true_eq]
    split
    · obtain ⟨e | more, g'⟩ := (Guarded.round delay).run.run g
      · rfl
      · cases more <;> rfl
    · rfl

/-- The states in which a run of the machine begins its rounds. -/
def begun (delay : Value) (m : Machine) : List Machine := (course delay).begun m.roundsLeft m

/-- The states of a run of the machine. -/
def states (delay : Value) (m : Machine) : List Machine := (course delay).states m.roundsLeft m

/-- The bytes that a run of the machine executes. -/
def executed (delay : Value) (m : Machine) : List UInt8 :=
  (m.begun delay).filterMap fun m => m.byteAt? m.pc

/-- The states of a run of the guarded machine, through an ordeal if `hell` is set. -/
def Guarded.states (delay : Value) (hell : Bool) (g : Guarded) : List Guarded :=
  (Guarded.course delay).states (g.prepare hell).core.roundsLeft (g.prepare hell)

/-! ## Rounds of the guarded machine -/

namespace Guarded

/-- The part of a round before the operation: it is found, and the guard lets it pass or not. -/
def inspect : Act (Option UInt8) := do
  modify fun g => { g with core := g.core.counted }
  if !(← get).shield.calm then
    let _ ← refuse
    return none
  else
    let b ← onCore (fetch (← get).core.pc)
    let op := (← get).reveal b
    modify fun g => { g with history := g.history.push op }
    consultShield op
    consultOrdeal
    if (← get).core.traced then print (traceLine (← get).core op)
    return some op

/-- What follows an operation in a round, if the run goes on. -/
def follow (delay : Value) (op : UInt8) (more : Bool) : Act Bool := do
  if !more then return false
  if (← get).core.steps % 10 = 0 then consultMutator op
  if (← onCore (calculate (delay.greater (.int 0)))) then onCore (wait delay)
  return true

/-- The part of a round that executes the operation, if there is one. -/
def fulfil (delay : Value) : Option UInt8 → Act Bool
  | none => return false
  | some op => onCore (execute op.toNat) >>= follow delay op

theorem refuse_bind_false : (refuse >>= fun _ => pure false) = refuse := by
  simp only [refuse, bind_assoc]
  refine bind_congr fun _ => bind_congr fun g => ?_
  split <;> simp

theorem round_eq_inspect (delay : Value) : round delay = inspect >>= fulfil delay := by
  simp only [round, inspect, operate, bind_assoc]
  refine bind_congr fun _ => bind_congr fun g => ?_
  split
  · rw [bind_assoc]
    exact refuse_bind_false.symm
  · simp only [bind_assoc]
    refine bind_congr fun _ => bind_congr fun b => bind_congr fun _ => bind_congr fun _ =>
      bind_congr fun _ => bind_congr fun _ => bind_congr fun g => ?_
    split
    · simp only [bind_assoc, pure_bind]
      rfl
    · rw [pure_bind]
      rfl

end Guarded

/-! ## What lasts -/

/-- A property of machines that at most operations might disturb. -/
structure Aloof (P : Machine → Prop) : Prop where
  recount : ∀ {m : Machine} (steps : Nat), P m → P { m with steps }
  reprint : ∀ {m : Machine} (printed : Array String), P m → P { m with printed }
  rewait : ∀ {m : Machine} (waits : Array Value), P m → P { m with waits }
  recode : ∀ {m : Machine} (code : Array UInt8), P m → P { m with code }
  redraw : ∀ {m : Machine} (rng : Twister), P m → P { m with rng }

/-- A property of machines that at most operations might disturb, and that they keep. -/
structure Lasting (P : Machine → Prop) : Prop extends Aloof P where
  execute : ∀ code : Int, Keeps P (execute code)

theorem keeps_calculate {α : Type} {P : Machine → Prop} (r : Except Fault α) :
    Keeps P (calculate r) := by
  cases r with
  | ok a => exact .pure a
  | error f => exact .throw _

theorem keeps_fetch {P : Machine → Prop} (address : Int) : Keeps P (fetch address) := by
  refine .get fun m _ => ?_
  split
  · exact .pure _
  · exact .throw _

theorem after_onCore {P : Machine → Prop} {α : Type} {r : Run α} {g : Guarded}
    (h : P (perform r g.core).2) : P ((Guarded.onCore r).run.run g).2.core := by
  rw [Guarded.run_onCore]
  exact h

theorem keeps_onCore {P : Machine → Prop} {α : Type} {r : Run α} (h : Keeps P r) :
    Keeps (fun g : Guarded => P g.core) (Guarded.onCore r) :=
  fun g hg => after_onCore (h g.core hg)

namespace Aloof

variable {P : Machine → Prop}

theorem announced (h : Aloof P) {m : Machine} (b : UInt8) (hm : P m) : P (m.announced b) := by
  rw [Machine.announced]
  split
  · exact h.reprint _ (h.recount _ hm)
  · exact h.recount _ hm

theorem keeps_print (h : Aloof P) (line : String) : Keeps P (print line) :=
  .modify fun _ hm => h.reprint _ hm

theorem keeps_wait (h : Aloof P) (time : Value) : Keeps P (wait time) :=
  (keeps_calculate _).bind fun _ => .modify fun _ hm => h.rewait _ hm

/-- A round keeps what its operation keeps. -/
theorem round (h : Aloof P) (delay : Value) {m : Machine} (hm : P m)
    (hexec : ∀ b, m.byteAt? m.pc = some b → P (perform (execute b.toNat) (m.announced b)).2) :
    P (perform (round delay) m).2 := by
  cases hb : m.counted.byteAt? m.pc with
  | none =>
    rw [perform_round_of_error _ (perform_fetch_none hb)]
    exact h.recount _ hm
  | some b =>
    rw [perform_round_of_fetch _ (perform_fetch hb)]
    refine Keeps.after (hexec b hb) fun more => .ite ?_ (.pure false)
    refine (keeps_calculate _).bind fun late => .ite ?_ (.pure true)
    exact (h.keeps_wait delay).bind fun _ => .pure true

theorem keeps_consultShield (h : Aloof P) (op : UInt8) :
    Keeps (fun g : Guarded => P g.core) (Guarded.consultShield op) := by
  refine .get fun g hg => .bind (.set hg) fun _ => ?_
  refine .bind (.forM (fun line => keeps_onCore (h.keeps_print line)) _) fun _ => ?_
  split
  · exact .pure ()
  · exact .throw _

theorem keeps_consultOrdeal (h : Aloof P) :
    Keeps (fun g : Guarded => P g.core) Guarded.consultOrdeal := by
  refine .get fun g hg => ?_
  split
  · exact .pure ()
  · refine .bind (.set (h.reprint _ hg)) fun _ => ?_
    split
    · exact .pure ()
    · exact .throw _

theorem keeps_consultMutator (h : Aloof P) (op : UInt8) :
    Keeps (fun g : Guarded => P g.core) (Guarded.consultMutator op) := by
  refine .get fun g hg => ?_
  split
  · exact .set (h.recode _ hg)
  · exact .throw _

theorem keeps_refuse (h : Aloof P) : Keeps (fun g : Guarded => P g.core) Guarded.refuse := by
  refine (keeps_onCore (h.keeps_print _)).bind fun _ => .get fun g _ => ?_
  exact .ite (.bind (.throw _) fun _ => .pure false) (.pure false)

theorem keeps_inspect (h : Aloof P) : Keeps (fun g : Guarded => P g.core) Guarded.inspect := by
  refine .bind (.modify fun _ hg => h.recount _ hg) fun _ => .get fun g _ => .ite ?_ ?_
  · exact h.keeps_refuse.bind fun _ => .pure none
  · refine .get fun g _ => (keeps_onCore (keeps_fetch _)).bind fun b => .get fun g _ => ?_
    refine .bind (.modify fun _ hg => hg) fun _ => ?_
    refine (h.keeps_consultShield _).bind fun _ => h.keeps_consultOrdeal.bind fun _ => ?_
    refine .get fun g _ => .ite (.get fun g _ => ?_) (.pure _)
    exact (keeps_onCore (h.keeps_print _)).bind fun _ => .pure _

theorem keeps_follow (h : Aloof P) (delay : Value) (op : UInt8) (more : Bool) :
    Keeps (fun g : Guarded => P g.core) (Guarded.follow delay op more) := by
  have hwait : Keeps (fun g : Guarded => P g.core) (do
      if (← Guarded.onCore (calculate (delay.greater (.int 0)))) then Guarded.onCore (wait delay)
      return true) := by
    refine (keeps_onCore (keeps_calculate _)).bind fun late => .ite ?_ (.pure true)
    exact (keeps_onCore (h.keeps_wait delay)).bind fun _ => .pure true
  refine .ite (.pure false) (.get fun g _ => .ite ?_ hwait)
  exact (h.keeps_consultMutator op).bind fun _ => hwait

/-- A round of the guarded machine keeps what its operation keeps, if it comes to one. -/
theorem guarded_round (h : Aloof P) (delay : Value) {g : Guarded} (hg : P g.core)
    (hexec : ∀ op g', Guarded.inspect.run.run g = (.ok (some op), g') → P g'.core →
      P (perform (Machine.execute op.toNat) g'.core).2) :
    P ((Guarded.round delay).run.run g).2.core := by
  have hinspect := h.keeps_inspect g hg
  rw [Guarded.round_eq_inspect]
  cases hrun : Guarded.inspect.run.run g with
  | mk r g' =>
    rw [hrun] at hinspect
    rcases r with e | _ | op
    · rw [run_bind_of_error _ hrun]
      exact hinspect
    · rw [run_bind_of_ok _ hrun]
      exact hinspect
    · rw [run_bind_of_ok _ hrun, Guarded.fulfil]
      have hop := after_onCore (Guarded.after_execute hinspect (hexec op g' hrun hinspect))
      generalize Guarded.onCore (Guarded.execute op.toNat) = x at hop ⊢
      exact Keeps.after (P := fun g : Guarded => P g.core) hop (h.keeps_follow delay op)

theorem keeps_awardFlag (h : Aloof P) : Keeps P awardFlag := by
  refine .get fun m _ => .ite ?_ ?_
  · exact (keeps_calculate _).bind fun _ =>
      .ite (h.keeps_print _) (.ite (h.keeps_print _) (.pure ()))
  · exact .bind (.pure false) fun _ =>
      .ite (h.keeps_print _) (.ite (h.keeps_print _) (.pure ()))

/-- What holds in the last state holds after the run. -/
theorem run (h : Aloof P) (delay : Value) (challenge : Bool) {m : Machine}
    (hstates : ∀ m' ∈ m.states delay, P m') : P (Machine.run delay challenge m).2 := by
  have hend : P (loop delay m.roundsLeft m).2 := by
    rw [loop_eq_course]
    exact hstates _ (by simp [Machine.states, Course.states])
  have hconclude (r : Except Failure Unit) {m : Machine} (hm : P m) : P (conclude r m).2 := by
    cases r with
    | ok _ => exact hm
    | error e => exact h.reprint _ hm
  rw [Machine.run]
  generalize loop delay m.roundsLeft m = outcome at hend
  obtain ⟨e | u, m'⟩ := outcome
  · exact hconclude _ hend
  · cases challenge with
    | false => exact hconclude _ hend
    | true => exact hconclude _ (h.keeps_awardFlag m' hend)

theorem guarded_run (h : Aloof P) (delay : Value) (challenge hell : Bool) {g : Guarded}
    (hstates : ∀ g' ∈ g.states delay hell, P g'.core) :
    P (Guarded.run delay challenge hell g).2.core := by
  have hend : P (Guarded.loop delay (g.prepare hell).core.roundsLeft (g.prepare hell)).2.core := by
    rw [Guarded.loop_eq_course]
    exact hstates _ (by simp [Guarded.states, Course.states])
  have hconclude (r : Except Failure Unit) {g : Guarded} (hg : P g.core) :
      P (g.conclude r).2.core := by
    cases r with
    | ok _ => exact hg
    | error e => exact h.reprint _ hg
  simp only [Guarded.run]
  generalize Guarded.loop delay _ (g.prepare hell) = outcome at hend
  obtain ⟨e | u, g'⟩ := outcome
  · exact hconclude _ hend
  · by_cases hflag : (challenge && !hell) = true
    · simp only [if_pos hflag]
      exact hconclude _ (keeps_onCore h.keeps_awardFlag g' hend)
    · simp only [if_neg hflag]
      exact hconclude _ hend

theorem prepare (h : Aloof P) (hell : Bool) {g : Guarded} (hg : P g.core) :
    P (g.prepare hell).core := by
  cases hell with
  | false => exact hg
  | true => exact h.redraw _ hg

end Aloof

namespace Lasting

variable {P : Machine → Prop}

/-- What lasts, and holds at the start, holds in all states of a run. -/
theorem forall_states (h : Lasting P) (delay : Value) {m : Machine} (hm : P m) :
    ∀ m' ∈ m.states delay, P m' := by
  refine Course.forall_states (c := course delay) (fun m' hm' => ?_) _ hm
  exact h.round delay hm' fun b _ => h.execute _ _ (h.announced b hm')

theorem forall_guarded_states (h : Lasting P) (delay : Value) (hell : Bool) {g : Guarded}
    (hg : P g.core) : ∀ g' ∈ g.states delay hell, P g'.core := by
  refine Course.forall_states (c := Guarded.course delay) (P := fun g => P g.core)
    (fun g' hg' => ?_) _ (h.prepare hell hg)
  exact h.guarded_round delay hg' fun op g'' _ hg'' => h.execute _ _ hg''

/-- What lasts, and holds at the start, holds after a run. -/
theorem run (h : Lasting P) (delay : Value) (challenge : Bool) {m : Machine} (hm : P m) :
    P (Machine.run delay challenge m).2 :=
  h.toAloof.run delay challenge (h.forall_states delay hm)

theorem guarded_run (h : Lasting P) (delay : Value) (challenge hell : Bool) {g : Guarded}
    (hg : P g.core) : P (Guarded.run delay challenge hell g).2.core :=
  h.toAloof.guarded_run delay challenge hell (h.forall_guarded_states delay hell hg)

end Lasting

end Machine

end Birokrasi
