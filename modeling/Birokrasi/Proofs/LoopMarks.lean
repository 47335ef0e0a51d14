import Birokrasi.Proofs.Marks

/-!
# Loops and marks

A loop takes the mark of a round away when it begins the next one, and the mark that it is being left when
it is left. This module follows a loop round by round (`Rounds`) and says which marks are there after it
(`loop_marks`). If the last round is cut short, no other round takes its mark away, and it stays. After the
program has been ended, or while a function is being left, a round does nothing, but the loop goes on: it
sets its variable, or evaluates its condition, until there is no round.
-/

namespace Birokrasi.Extended

open Birokrasi.Text
open Birokrasi.Extended.Tree (inTurn)

/-! ## Rounds -/

/-- The marks of a round and of a loop taken away. -/
def State.unmarked (s : State) : State := { s with breaking := false, continuing := false }

/-- A round of a loop: the states in which it is begun and in which its body ends. -/
structure Round where
  found : State
  left : State

/-- The rounds of a loop from the one with number `k` on. Before a round, `next` says whether there is one.
The last but one argument says whether the loop is left by its body. -/
inductive Rounds (next : Nat → Run Bool) (body : Run Unit) :
    (k : Nat) → State → List Round → (broken : Bool) → State → Prop where
  | done {k : Nat} {s t : State} : (next k).run.run s = (.ok false, t) → Rounds next body k s [] false t
  | broken {k : Nat} {s t u : State} : (next k).run.run s = (.ok true, t) →
    body.run.run t.unmarked = (.ok (), u) → u.breaking = true →
      Rounds next body k s [⟨t, u⟩] true { u with breaking := false }
  | again {k : Nat} {s t u s' : State} {rs : List Round} {broken : Bool} :
    (next k).run.run s = (.ok true, t) → body.run.run t.unmarked = (.ok (), u) → u.breaking = false →
      Rounds next body (k + 1) u rs broken s' → Rounds next body k s (⟨t, u⟩ :: rs) broken s'

/-- Plays rounds as long as there is one, for a number of rounds at most. -/
def playRounds (next : Nat → Run Bool) (body : Run Unit) : (rounds k : Nat) → Run Unit
  | 0, k => do
    let _ ← next k
  | rounds + 1, k => do
    if (← next k) then
      if (← playRound body) then pure () else playRounds next body rounds (k + 1)
    else pure ()

section Rounds

variable {next : Nat → Run Bool} {body : Run Unit} {k : Nat} {s s' : State}

theorem playRound_eq_ok {left : Bool} (h : (playRound body).run.run s = (.ok left, s')) :
    ∃ u, body.run.run s.unmarked = (.ok (), u) ∧ u.breaking = left ∧
      s' = if left then { u with breaking := false } else u := by
  rw [playRound, run_modify_bind] at h
  obtain ⟨⟨⟩, u, hbody, h⟩ := run_bind_eq_ok.1 h
  refine ⟨u, hbody, ?_⟩
  rw [run_get_bind] at h
  cases hu : u.breaking with
  | true =>
    rw [hu] at h
    obtain ⟨hleft, hs'⟩ := Prod.mk.inj h
    cases hleft
    exact ⟨rfl, hs'.symm⟩
  | false =>
    rw [hu] at h
    obtain ⟨hleft, hs'⟩ := Prod.mk.inj h
    cases hleft
    exact ⟨rfl, hs'.symm⟩

theorem exists_rounds {rounds : Nat} (hlast : ∀ s t, (next (k + rounds)).run.run s ≠ (.ok true, t))
    (h : (playRounds next body rounds k).run.run s = (.ok (), s')) :
    ∃ rs broken, Rounds next body k s rs broken s' ∧ rs.length ≤ rounds := by
  induction rounds generalizing k s with
  | zero =>
    obtain ⟨b, t, hnext, hend⟩ := run_bind_eq_ok.1 h
    obtain rfl : t = s' := (Prod.mk.inj hend).2
    cases b with
    | true => exact absurd hnext (hlast s t)
    | false => exact ⟨[], false, .done hnext, Nat.le_refl 0⟩
  | succ rounds ih =>
    obtain ⟨b, t, hnext, hrest⟩ := run_bind_eq_ok.1 h
    cases b with
    | false =>
      obtain rfl : t = s' := (Prod.mk.inj hrest).2
      exact ⟨[], false, .done hnext, Nat.zero_le _⟩
    | true =>
      obtain ⟨left, v, hround, hrest⟩ := run_bind_eq_ok.1 hrest
      obtain ⟨u, hbody, hleft, hv⟩ := playRound_eq_ok hround
      cases left with
      | true =>
        obtain rfl : v = s' := (Prod.mk.inj hrest).2
        rw [hv]
        exact ⟨[⟨t, u⟩], true, .broken hnext hbody hleft, by simp⟩
      | false =>
        obtain rfl : v = u := hv
        have hlast' : ∀ s t, (next (k + 1 + rounds)).run.run s ≠ (.ok true, t) := by
          rw [Nat.add_right_comm, Nat.add_assoc]
          exact hlast
        obtain ⟨rs, broken, hrs, hlength⟩ := ih hlast' hrest
        exact ⟨⟨t, v⟩ :: rs, broken, .again hnext hbody hleft hrs, by simpa using hlength⟩

end Rounds

/-! ## The three loops -/

/-- A loop: one with a condition, or a counted one. -/
inductive Loop where
  | conditional (condition : List Char)
  | counted (header : LoopHeader)

namespace Loop

/-- The loop that a trimmed line is the header of. -/
def ofLine? (line : List Char) : Option Loop :=
  if startsWith line "selama ".toList then some (.conditional (line.drop 7))
  else if startsWith line "untuk ".toList then some (.counted (LoopHeader.ofLine line))
  else none

/-- What is said when a loop with a condition has no round left. -/
def warning : String := "⚠️ Loop dihentikan: Mencapai batas maksimum iterasi"

/-- Whether a loop with a condition has a round with a number. -/
def whileNext (condition : Run Bool) (k : Nat) : Run Bool := do
  if k < roundLimit then condition
  else
    let _ ← condition
    report warning
    return false

/-- Whether there is an item for a round, which is given to the variable. -/
def itemNext (name : String) (cell k : Nat) : Run Bool := do
  if k < patience then
    match ((← get).store.items cell)[k]? with
    | none => return false
    | some item =>
      assign name item
      return true
  else throw .unfinished

/-- Whether there is a double for a round, which is given to the variable. -/
def rangeNext (name : String) (first last : Float) (k : Nat) : Run Bool := do
  if k < patience then
    if k.repeat (· + 1.0) first ≤ last then
      assign name (.float (k.repeat (· + 1.0) first))
      return true
    else return false
  else throw .unfinished

/-- Evaluates the header of a loop. -/
def start (call : Caller) : Loop → Run (Nat → Run Bool)
  | .conditional condition => return whileNext (holds call condition)
  | .counted (.over name (.items expr)) => do
    match ← evaluate call expr with
    | .listRef cell => return itemNext name cell
    | _ => throw .notIterable
  | .counted (.over name (.range first last)) => do
    let first ← floatOf (← evaluate call first)
    let last ← floatOf (← evaluate call last)
    return rangeNext name first last
  | .counted .malformed => throw .loopForm
  | .counted .unknown => throw .unknownLoop

/-- The most rounds of a loop. -/
def limit : Loop → Nat
  | .conditional _ => roundLimit
  | .counted _ => patience

/-- Executes a loop. -/
def run (call : Caller) (body : Run Unit) : Loop → Run Unit
  | .conditional condition => whileLoop (holds call condition) body roundLimit
  | .counted header => countedLoop call header body

theorem whileLoop_eq (condition : Run Bool) (body : Run Unit) {rounds k : Nat}
    (h : k + rounds = roundLimit) :
    whileLoop condition body rounds = playRounds (whileNext condition) body rounds k := by
  induction rounds generalizing k with
  | zero =>
    rw [whileLoop, playRounds, whileNext, if_neg (by omega)]
    simp only [bind_assoc, pure_bind, bind_pure_unit]
    rfl
  | succ rounds ih =>
    rw [whileLoop, playRounds, whileNext, if_pos (by omega), ih (k := k + 1) (by omega)]

theorem itemLoop_eq (name : String) (cell : Nat) (body : Run Unit) {rounds k : Nat}
    (h : k + rounds = patience) :
    itemLoop name cell body rounds k = playRounds (itemNext name cell) body rounds k := by
  induction rounds generalizing k with
  | zero =>
    rw [itemLoop, playRounds, itemNext, if_neg (by omega)]
    rfl
  | succ rounds ih =>
    rw [itemLoop, playRounds, itemNext, if_pos (by omega), ih (k := k + 1) (by omega), bind_assoc]
    congr 1
    funext s
    cases (s.store.items cell)[k]? with
    | none => rfl
    | some item => simp only [bind_assoc, pure_bind, if_true]

theorem rangeLoop_eq (name : String) (first last : Float) (body : Run Unit) {rounds k : Nat}
    (h : k + rounds = patience) :
    rangeLoop name last body rounds (k.repeat (· + 1.0) first) =
      playRounds (rangeNext name first last) body rounds k := by
  induction rounds generalizing k with
  | zero =>
    rw [rangeLoop, playRounds, rangeNext, if_neg (by omega)]
    rfl
  | succ rounds ih =>
    have hk : k < patience := by omega
    have ih := ih (k := k + 1) (by omega)
    rw [Nat.repeat] at ih
    rw [rangeLoop, playRounds, rangeNext, ih]
    simp only [hk, if_true]
    split
    · simp only [bind_assoc, pure_bind, if_true]
    · rfl

theorem run_eq (call : Caller) (body : Run Unit) (l : Loop) :
    l.run call body = (do playRounds (← l.start call) body l.limit 0) := by
  cases l with
  | conditional condition =>
    rw [run, start, pure_bind]
    exact whileLoop_eq _ _ (Nat.zero_add _)
  | counted header =>
    cases header with
    | «over» name span =>
      cases span with
      | items expr =>
        rw [run, countedLoop, start, bind_assoc]
        refine bind_congr fun v => ?_
        cases v with
        | listRef cell => exact itemLoop_eq name cell body (Nat.zero_add _)
        | _ => rfl
      | range first last =>
        rw [run, countedLoop, start]
        simp only [bind_assoc, pure_bind]
        refine bind_congr fun v => bind_congr fun x => bind_congr fun w => bind_congr fun y => ?_
        exact rangeLoop_eq name x y body (Nat.zero_add _)
    | malformed => rfl
    | unknown => rfl

/-- Whether a loop is a counted one. -/
def isCounted : Loop → Bool
  | .conditional _ => false
  | .counted _ => true

/-- What a loop that has begun does between its rounds. -/
theorem next_cases {call : Caller} {l : Loop} {s t : State} {next : Nat → Run Bool}
    (h : (l.start call).run.run s = (.ok next, t)) :
    (∃ condition, l = .conditional condition ∧ next = whileNext (holds call condition)) ∨
    l.isCounted = true ∧
      ((∃ name cell, next = itemNext name cell) ∨
        ∃ name first last, next = rangeNext name first last) := by
  cases l with
  | conditional condition =>
    obtain ⟨hnext, -⟩ := Prod.mk.inj h
    exact .inl ⟨condition, rfl, (Except.ok.inj hnext).symm⟩
  | counted header =>
    refine .inr ⟨rfl, ?_⟩
    cases header with
    | «over» name span =>
      cases span with
      | items expr =>
        obtain ⟨v, u, -, h⟩ := run_bind_eq_ok.1 h
        split at h
        next cell =>
          obtain ⟨hnext, -⟩ := Prod.mk.inj h
          exact .inl ⟨name, cell, (Except.ok.inj hnext).symm⟩
        · cases congrArg Prod.fst h
      | range first last =>
        obtain ⟨v, u, -, h⟩ := run_bind_eq_ok.1 h
        obtain ⟨x, u, -, h⟩ := run_bind_eq_ok.1 h
        obtain ⟨w, u, -, h⟩ := run_bind_eq_ok.1 h
        obtain ⟨y, u, -, h⟩ := run_bind_eq_ok.1 h
        obtain ⟨hnext, -⟩ := Prod.mk.inj h
        exact .inr ⟨name, x, y, (Except.ok.inj hnext).symm⟩
    | malformed => cases congrArg Prod.fst h
    | unknown => cases congrArg Prod.fst h

theorem next_limit {call : Caller} {l : Loop} {s t : State} {next : Nat → Run Bool}
    (h : (l.start call).run.run s = (.ok next, t)) (u v : State) :
    (next l.limit).run.run u ≠ (.ok true, v) := by
  intro hnext
  cases l with
  | conditional condition =>
    obtain ⟨c, hl, rfl⟩ | ⟨hcounted, -⟩ := next_cases h
    · rw [limit, whileNext, if_neg (Nat.lt_irrefl _)] at hnext
      obtain ⟨b, w, -, hnext⟩ := run_bind_eq_ok.1 hnext
      cases congrArg Prod.fst hnext
    · cases hcounted
  | counted header =>
    obtain ⟨c, hl, -⟩ | ⟨-, ⟨name, cell, rfl⟩ | ⟨name, first, last, rfl⟩⟩ := next_cases h
    · cases hl
    · rw [limit, itemNext, if_neg (Nat.lt_irrefl _)] at hnext
      cases congrArg Prod.fst hnext
    · rw [limit, rangeNext, if_neg (Nat.lt_irrefl _)] at hnext
      cases congrArg Prod.fst hnext

/-! ## Marks between rounds -/

section Between

variable {P : State → Prop} {call : Caller} {l : Loop} {s t : State} {next : Nat → Run Bool}

/-- Between its rounds a counted loop evaluates nothing. -/
theorem keeps_next_of_counted (hP : Framed P) (h : (l.start call).run.run s = (.ok next, t))
    (hl : l.isCounted = true) (k : Nat) : Keeps P (next k) := by
  obtain ⟨c, rfl, -⟩ | ⟨-, ⟨name, cell, rfl⟩ | ⟨name, first, last, rfl⟩⟩ := next_cases h
  · cases hl
  · refine .ite (.get fun u _ => ?_) (.throw _)
    split
    · exact .pure _
    · exact (hP.keeps_assign name _).bind fun _ => .pure _
  · exact .ite (.ite ((hP.keeps_assign name _).bind fun _ => .pure _) (.pure _)) (.throw _)

theorem keeps_next (hP : Framed P)
    (hcall : ∀ s name, P s → s.functions.has name = true → ∀ vs, Keeps P (call name vs))
    (h : (l.start call).run.run s = (.ok next, t)) (k : Nat) : Keeps P (next k) := by
  obtain ⟨c, -, rfl⟩ | ⟨hl, -⟩ := next_cases h
  · have hholds := hP.keeps_holds hcall c
    exact .ite hholds (hholds.bind fun _ => (hP.keeps_report _).bind fun _ => .pure _)
  · exact keeps_next_of_counted hP h hl k

theorem keeps_start (hP : Framed P)
    (hcall : ∀ s name, P s → s.functions.has name = true → ∀ vs, Keeps P (call name vs)) (l : Loop) :
    Keeps P (l.start call) := by
  have heval := hP.keeps_evaluate hcall
  unfold start
  split
  · exact .pure _
  · refine (heval _).bind fun v => ?_
    split
    · exact .pure _
    · exact .throw _
  · refine (heval _).bind fun v => (keeps_floatOf v).bind fun x => ?_
    exact (heval _).bind fun w => (keeps_floatOf w).bind fun y => .pure _
  · exact .throw _
  · exact .throw _

end Between

/-- A loop whose header does not depend on the functions of the program. -/
def Callless (l : Loop) : Prop := ∀ call call' : Caller, l.start call = l.start call'

theorem callless_of_no_parenthesis {line : List Char} {l : Loop} (hl : ofLine? line = some l)
    (h : '(' ∉ line) : l.Callless := by
  intro call call'
  have heval : ∀ part : List Char, part ⊆ line → evaluate call part = evaluate call' part :=
    fun part hpart => evaluate_of_no_call (fun hc => h (hpart hc)) call call'
  unfold ofLine? at hl
  split at hl
  · cases hl
    rw [start, start, holds, holds, heval _ (List.drop_subset 7 line)]
  · split at hl
    · cases hl
      unfold LoopHeader.ofLine
      split
      next front expr hcut =>
        rw [start, start, heval (trim expr) fun _ hc => (cut?_subset hcut).2 (mem_of_mem_trim hc)]
      · split
        · split
          next name first last hrange =>
            obtain ⟨hfirst, hlast⟩ := range?_subset hrange
            rw [start, start, heval first hfirst, heval last hlast]
          · rfl
        · rfl
    · cases hl

theorem keeps_start_of_callless {P : State → Prop} {l : Loop} (hP : Framed P) (hl : l.Callless)
    (call : Caller) : Keeps P (l.start call) := by
  rw [hl call fun _ _ => throw .unfinished]
  exact keeps_start hP (fun _ _ _ _ _ => .throw _) l

theorem keeps_next_of_callless {P : State → Prop} {call : Caller} {l : Loop} {s t : State}
    {next : Nat → Run Bool} (hP : Framed P) (hl : l.Callless)
    (h : (l.start call).run.run s = (.ok next, t)) (k : Nat) : Keeps P (next k) := by
  rw [hl call fun _ _ => throw .unfinished] at h
  exact keeps_next hP (fun _ _ _ _ _ => .throw _) h k

/-- The program has been ended, or a function is being left and no condition can call another one. -/
def Stopped (l : Loop) (s : State) : Prop :=
  s.finished = true ∨ s.returning = true ∧ (l.isCounted = true ∨ l.Callless)

section Between

variable {l : Loop} {depth : Nat} {s t : State} {next : Nat → Run Bool}

theorem keeps_next_finished (h : (l.start (callFunction depth)).run.run s = (.ok next, t)) (k : Nat) :
    Keeps (fun s => s.finished = true) (next k) :=
  keeps_next framed_finished (fun _ name _ _ => keeps_callFunction_of_leaving framed_finished
    (fun _ _ h => h) (fun _ => State.leaving_of_finished) depth name) h k

theorem keeps_next_continuing (h : (l.start (callFunction depth)).run.run s = (.ok next, t)) (k : Nat) :
    Keeps (fun s => s.continuing = true) (next k) :=
  keeps_next framed_continuing (fun _ name _ _ => keeps_callFunction_of_leaving framed_continuing
    (fun _ _ h => h) (fun _ => State.leaving_of_continuing) depth name) h k

theorem keeps_next_stopped (h : (l.start (callFunction depth)).run.run s = (.ok next, t)) (k : Nat) :
    Keeps l.Stopped (next k) := by
  rintro u (hfinished | ⟨hreturning, hl | hl⟩)
  · exact .inl (keeps_next_finished h k u hfinished)
  · exact .inr ⟨keeps_next_of_counted framed_returning h hl k u hreturning, .inl hl⟩
  · exact .inr ⟨keeps_next_of_callless framed_returning hl h k u hreturning, .inr hl⟩

theorem Stopped.leaving (h : l.Stopped s) : s.leaving = true := by
  rcases h with hfinished | ⟨hreturning, -⟩
  · exact State.leaving_of_finished hfinished
  · exact State.leaving_of_returning hreturning

theorem Stopped.unmarked (h : l.Stopped s) : l.Stopped s.unmarked := h

end Between

end Loop

/-! ## Whole loops -/

/-- The state after the last of some rounds. -/
def lastState (s : State) : List Round → State
  | [] => s
  | r :: rs => lastState r.left rs

section Whole

variable {next : Nat → Run Bool} {body : Run Unit} {k : Nat} {s s' : State} {rs : List Round}
  {broken : Bool}

/-- A loop that is not left by its body ends where there is no round. -/
theorem Rounds.ended (h : Rounds next body k s rs broken s') (hbroken : broken = false) :
    (next (k + rs.length)).run.run (lastState s rs) = (.ok false, s') := by
  induction h with
  | done hnext => exact hnext
  | broken => cases hbroken
  | @again k s t u s' rs broken _ _ _ _ ih =>
    have ih := ih hbroken
    rw [Nat.add_assoc, Nat.add_comm 1] at ih
    exact ih

theorem Rounds.not_breaking (h : Rounds next body k s rs broken s') (hbroken : broken = false)
    (hrs : rs ≠ []) : (lastState s rs).breaking = false := by
  induction h with
  | done => exact absurd rfl hrs
  | broken => cases hbroken
  | @again k s t u s' rs broken _ _ hu _ ih =>
    cases rs with
    | nil => exact hu
    | cons r rs => exact ih hbroken (List.cons_ne_nil r rs)

theorem Rounds.unmarked (h : Rounds next body k s rs broken s') (hbroken : broken = true)
    (hbody : Keeps (fun s => (s.breaking && s.continuing) = false) body) :
    s'.breaking = false ∧ s'.continuing = false := by
  induction h with
  | done => cases hbroken
  | @broken k s t u hnext hrun hu =>
    have hexclusive := hbody.of_run hrun rfl
    rw [hu] at hexclusive
    exact ⟨rfl, hexclusive⟩
  | again _ _ _ _ ih => exact ih hbroken

/-- Rounds whose bodies have nothing to do. -/
theorem Rounds.idle (h : Rounds next body k s rs broken s')
    (hbody : ∀ t : State, t.leaving = true → body.run.run t = (.ok (), t)) (r : Round) (hr : r ∈ rs)
    (hfound : r.found.unmarked.leaving = true) : r.left = r.found.unmarked := by
  induction h with
  | done => cases hr
  | broken _ hrun _ =>
    obtain rfl := List.mem_singleton.1 hr
    rw [hbody _ hfound] at hrun
    exact (Prod.mk.inj hrun).2.symm
  | again _ hrun _ _ ih =>
    rcases List.mem_cons.1 hr with rfl | hr
    · rw [hbody _ hfound] at hrun
      exact (Prod.mk.inj hrun).2.symm
    · exact ih hr

/-- The rounds after some round. -/
theorem Rounds.after {r : Round} {before after : List Round}
    (h : Rounds next body k s (before ++ r :: after) broken s') (hr : r.left.breaking = false) :
    Rounds next body (k + before.length + 1) r.left after broken s' := by
  induction before generalizing k s with
  | nil =>
    cases h with
    | broken _ _ hu => cases hr.symm.trans hu
    | again _ _ _ hrest => exact hrest
  | cons r' before ih =>
    rw [List.cons_append] at h
    generalize hrs : before ++ r :: after = rs at h
    cases h with
    | broken => simp at hrs
    | again _ _ _ hrest =>
      subst hrs
      have hafter := ih hrest
      rw [Nat.add_assoc k 1, Nat.add_comm 1] at hafter
      exact hafter

/-- Once a loop has stopped it is not left: it goes on, and its rounds do nothing. -/
theorem Rounds.of_stopped {l : Loop} (h : Rounds next body k s rs broken s')
    (hnext : ∀ k, Keeps l.Stopped (next k))
    (hbody : ∀ t : State, t.leaving = true → body.run.run t = (.ok (), t)) (hs : l.Stopped s) :
    broken = false ∧ l.Stopped s' ∧ ∀ r ∈ rs, l.Stopped r.found ∧ r.left = r.found.unmarked := by
  induction h with
  | @done k s t hrun =>
    have ht := (hnext k).of_run hrun hs
    exact ⟨rfl, ht, fun r hr => absurd hr List.not_mem_nil⟩
  | @broken k s t u hrun hplayed hu =>
    have ht := (hnext k).of_run hrun hs
    rw [hbody _ ht.unmarked.leaving] at hplayed
    rw [← (Prod.mk.inj hplayed).2] at hu
    cases hu
  | @again k s t u s' rs broken hrun hplayed hu _ ih =>
    have ht := (hnext k).of_run hrun hs
    rw [hbody _ ht.unmarked.leaving] at hplayed
    have hleft : u = t.unmarked := (Prod.mk.inj hplayed).2.symm
    obtain ⟨hbroken, hs', hrs⟩ := ih (hleft ▸ ht.unmarked)
    refine ⟨hbroken, hs', fun r hr => ?_⟩
    rcases List.mem_cons.1 hr with rfl | hr
    · exact ⟨ht, hleft⟩
    · exact hrs r hr

/-- What a loop with a condition does where its condition holds without effect. -/
theorem run_whileNext {condition : Run Bool} (hk : k ≤ roundLimit)
    (h : condition.run.run s = (.ok true, s)) :
    (k < roundLimit ∧ (Loop.whileNext condition k).run.run s = (.ok true, s)) ∨
    (k = roundLimit ∧ ∃ t, (Loop.whileNext condition k).run.run s = (.ok false, t) ∧
      t.reports = Loop.warning :: s.reports) := by
  unfold Loop.whileNext
  rcases Nat.lt_or_eq_of_le hk with hlt | heq
  · rw [if_pos hlt]
    exact .inl ⟨hlt, h⟩
  · rw [if_neg (by omega), run_bind_of_ok _ h]
    exact .inr ⟨heq, _, rfl, rfl⟩

/-- A condition that still holds is evaluated until there is no round left. -/
theorem Rounds.to_limit {condition : Run Bool}
    (h : Rounds (Loop.whileNext condition) body k s rs broken s') (hk : k ≤ roundLimit)
    (hbody : ∀ t : State, t.leaving = true → body.run.run t = (.ok (), t))
    (hs : s.unmarked.leaving = true) (hcondition : condition.run.run s = (.ok true, s))
    (hagain : condition.run.run s.unmarked = (.ok true, s.unmarked)) :
    k + rs.length = roundLimit ∧ s'.reports = Loop.warning :: s.reports := by
  induction h with
  | done hrun =>
    obtain ⟨-, hnext⟩ | ⟨hlimit, t, hnext, hreports⟩ := run_whileNext hk hcondition
    · cases congrArg Prod.fst (hnext.symm.trans hrun)
    · rw [(Prod.mk.inj (hrun.symm.trans hnext)).2]
      exact ⟨hlimit, hreports⟩
  | broken hrun hplayed hu =>
    obtain ⟨-, hnext⟩ | ⟨-, t, hnext, -⟩ := run_whileNext hk hcondition
    · obtain rfl := (Prod.mk.inj (hnext.symm.trans hrun)).2
      rw [hbody _ hs] at hplayed
      rw [← (Prod.mk.inj hplayed).2] at hu
      cases hu
    · cases congrArg Prod.fst (hnext.symm.trans hrun)
  | again hrun hplayed _ _ ih =>
    obtain ⟨hlt, hnext⟩ | ⟨-, t, hnext, -⟩ := run_whileNext hk hcondition
    · obtain rfl := (Prod.mk.inj (hnext.symm.trans hrun)).2
      rw [hbody _ hs] at hplayed
      obtain rfl := (Prod.mk.inj hplayed).2
      obtain ⟨hlength, hreports⟩ := ih hlt hs hagain hagain
      exact ⟨by rw [List.length_cons]; omega, hreports⟩
    · cases congrArg Prod.fst (hnext.symm.trans hrun)

theorem lastState_of_ne (s t : State) (hrs : rs ≠ []) : lastState s rs = lastState t rs := by
  cases rs with
  | nil => exact absurd rfl hrs
  | cons r rs => rfl

end Whole

/-- What the marks are after the rounds of a loop. -/
structure LoopAccount (l : Loop) (call : Caller) (s : State) (rs : List Round) (broken : Bool)
    (s' : State) : Prop where
  /-- A loop that its body leaves has no mark. -/
  unmarked : broken = true → s'.breaking = false ∧ s'.continuing = false
  /-- The mark of a last round that is cut short stays. -/
  cut_short : broken = false → (lastState s rs).continuing = true → s'.continuing = true
  /-- There is no other mark, but for those of functions that are called after the last round. -/
  contained : broken = false → l.isCounted = true ∧ rs ≠ [] ∨ l.Callless →
    s'.breaking = false ∧ s'.continuing = (lastState s rs).continuing
  /-- While the program has been ended or a function is being left, a round does nothing. -/
  idle : ∀ r ∈ rs, r.found.finished = true ∨ r.found.returning = true → r.left = r.found.unmarked
  /-- But then there are more rounds, as if nothing had been ended or left. -/
  goes_on : ∀ before r after, rs = before ++ r :: after → l.Stopped r.left → r.left.breaking = false →
    broken = false ∧ l.Stopped s' ∧ ∀ r' ∈ after, l.Stopped r'.found ∧ r'.left = r'.found.unmarked
  /-- A loop with a condition gives a warning where no round is left, and only there. -/
  warned : ∀ condition, l = .conditional condition →
    rs.length ≤ roundLimit ∧
    (broken = false → rs.length < roundLimit →
      (holds call condition).run.run (lastState s rs) = (.ok false, s')) ∧
    ∀ r ∈ rs, l.Stopped r.left → r.left.breaking = false → Answers call r.left condition true →
      Answers call r.left.unmarked condition true →
      rs.length = roundLimit ∧ s'.reports = Loop.warning :: r.left.reports

theorem exists_rounds_of_run {call : Caller} {body : Run Unit} {l : Loop} {s s' : State}
    (h : (l.run call body).run.run s = (.ok (), s')) :
    ∃ next t rs broken, (l.start call).run.run s = (.ok next, t) ∧
      Rounds next body 0 t rs broken s' ∧ rs.length ≤ l.limit := by
  rw [Loop.run_eq] at h
  obtain ⟨next, t, hstart, hrounds⟩ := run_bind_eq_ok.1 h
  have hlast := Loop.next_limit hstart
  rw [← Nat.zero_add l.limit] at hlast
  obtain ⟨rs, broken, hrs, hlength⟩ := exists_rounds hlast hrounds
  exact ⟨next, t, rs, broken, hstart, hrs, hlength⟩

theorem statementAt_of_loop {call : Caller} {lines : Array String} {j : Nat} {l : Loop}
    (h : Loop.ofLine? (lineAt lines j) = some l) :
    statementAt call lines j =
      l.run call (executeBlock call lines (j + 1) (blockEnd lines (j + 1) [closingWord])) := by
  unfold Loop.ofLine? at h
  unfold statementAt
  split at h
  next hstart =>
    obtain ⟨rest, hrest⟩ := Option.isSome_iff_exists.1 hstart
    cases h
    rw [eq_append_of_after? hrest]
    rfl
  · split at h
    next hstart =>
      obtain ⟨rest, hrest⟩ := Option.isSome_iff_exists.1 hstart
      cases h
      rw [eq_append_of_after? hrest]
      rfl
    · cases h

theorem lt_size_of_loop {lines : Array String} {j : Nat} {l : Loop}
    (h : Loop.ofLine? (lineAt lines j) = some l) : j < lines.size := by
  refine Decidable.byContradiction fun hj => ?_
  rw [lineAt, Array.getElem?_eq_none (Nat.le_of_not_lt hj)] at h
  cases h

section Account

variable {l : Loop} {depth : Nat} {body : Run Unit} {s t s' : State} {next : Nat → Run Bool}
  {rs : List Round} {broken : Bool}

/-- Where no function is called after the last round, its marks stay. -/
theorem marks_of_quiet (hstart : (l.start (callFunction depth)).run.run s = (.ok next, t))
    (hrounds : Rounds next body 0 t rs broken s') (hbroken : broken = false)
    (hquiet : l.isCounted = true ∧ rs ≠ [] ∨ l.Callless) : s'.marks = (lastState s rs).marks := by
  have hended := hrounds.ended hbroken
  rcases hquiet with ⟨hl, hrs⟩ | hl
  · rw [lastState_of_ne s t hrs]
    exact (Loop.keeps_next_of_counted (framed_marks _) hstart hl _).of_run hended rfl
  · have hfirst : (lastState t rs).marks = (lastState s rs).marks := by
      cases rs with
      | nil => exact (Loop.keeps_start_of_callless (framed_marks _) hl _).of_run hstart rfl
      | cons r rs => rfl
    exact (Loop.keeps_next_of_callless (framed_marks _) hl hstart _).of_run hended hfirst

theorem loopAccount (hs : s.leaving = false)
    (hexclusive : Keeps (fun s => (s.breaking && s.continuing) = false) body)
    (hidle : ∀ t : State, t.leaving = true → body.run.run t = (.ok (), t))
    (hstart : (l.start (callFunction depth)).run.run s = (.ok next, t))
    (hrounds : Rounds next body 0 t rs broken s') (hlength : rs.length ≤ l.limit) :
    LoopAccount l (callFunction depth) s rs broken s' where
  unmarked hbroken := hrounds.unmarked hbroken hexclusive
  cut_short hbroken hcontinuing := by
    cases rs with
    | nil =>
      have hmark : s.continuing = false := congrArg Marks.continuing (State.marks_of_not_leaving hs)
      cases hmark.symm.trans hcontinuing
    | cons r rs =>
      exact (Loop.keeps_next_continuing hstart _).of_run (hrounds.ended hbroken) hcontinuing
  contained hbroken hquiet := by
    have hmarks := marks_of_quiet hstart hrounds hbroken hquiet
    have hbreaking : (lastState s rs).breaking = false := by
      cases rs with
      | nil => exact congrArg Marks.breaking (State.marks_of_not_leaving hs)
      | cons r rs => exact hrounds.not_breaking hbroken (List.cons_ne_nil r rs)
    exact ⟨(congrArg Marks.breaking hmarks).trans hbreaking, congrArg Marks.continuing hmarks⟩
  idle r hr hfound := by
    refine hrounds.idle hidle r hr ?_
    rcases hfound with hfinished | hreturning
    · exact State.leaving_of_finished hfinished
    · exact State.leaving_of_returning hreturning
  goes_on before r after hrs hstopped hbreaking := by
    subst hrs
    exact (hrounds.after hbreaking).of_stopped (Loop.keeps_next_stopped hstart) hidle hstopped
  warned condition hl := by
    subst hl
    obtain ⟨hnext, hst⟩ := Prod.mk.inj hstart
    obtain rfl := Except.ok.inj hnext
    obtain rfl : s = t := hst
    refine ⟨hlength, fun hbroken hlt => ?_, fun r hr hstopped hbreaking hanswer hagain => ?_⟩
    · have hended := hrounds.ended hbroken
      rw [Loop.whileNext, if_pos (by omega)] at hended
      exact hended
    · obtain ⟨before, after, rfl⟩ := List.append_of_mem hr
      have hafter := hrounds.after hbreaking
      rw [List.length_append, List.length_cons] at hlength ⊢
      have hk : 0 + before.length + 1 ≤ roundLimit := by
        have hlength : before.length + (after.length + 1) ≤ roundLimit := hlength
        omega
      obtain ⟨hlimit, hreports⟩ := hafter.to_limit hk hidle hstopped.unmarked.leaving hanswer hagain
      exact ⟨by omega, hreports⟩

end Account

/-- A loop statement that comes to an end, begun where nothing is being left: its rounds, the marks after
it, and what is executed then. A loop calls no function between its rounds if there is no parenthesis in
its line. -/
theorem loop_marks (depth : Nat) {lines : Array String} {j : Nat} {l : Loop} {s s' : State}
    (hl : Loop.ofLine? (lineAt lines j) = some l) (hs : s.leaving = false)
    (hrun : (statementAt (callFunction depth) lines j).run.run s = (.ok (), s')) :
    (∃ next t rs broken, (l.start (callFunction depth)).run.run s = (.ok next, t) ∧
      Rounds next
        (executeBlock (callFunction depth) lines (j + 1) (blockEnd lines (j + 1) [closingWord])) 0 t rs
        broken s' ∧
      LoopAccount l (callFunction depth) s rs broken s') ∧
    ('(' ∉ lineAt lines j → l.Callless) ∧
    ∀ stop, j < stop →
      (executeBlock (callFunction depth) lines j stop).run.run s =
        (executeBlock (callFunction depth) lines (nextLine lines j) stop).run.run s' ∧
      (s'.leaving = true → (executeBlock (callFunction depth) lines j stop).run.run s = (.ok (), s')) := by
  refine ⟨?_, Loop.callless_of_no_parenthesis hl, fun stop hstop => ?_⟩
  · rw [statementAt_of_loop hl] at hrun
    obtain ⟨next, t, rs, broken, hstart, hrounds, hlength⟩ := exists_rounds_of_run hrun
    have hexclusive := lasting_exclusive.keeps_executeBlock (lasting_exclusive.keeps_callFunction depth)
    exact ⟨next, t, rs, broken, hstart, hrounds,
      loopAccount hs (hexclusive _ _ _) (fun _ => executeBlock_of_leaving) hstart hrounds hlength⟩
  · have hblock : (executeBlock (callFunction depth) lines j stop).run.run s =
        (executeBlock (callFunction depth) lines (nextLine lines j) stop).run.run s' := by
      rw [executeBlock_of_lt (lt_size_of_loop hl) hstop, inTurn, run_get_bind, hs]
      exact run_bind_of_ok _ hrun
    exact ⟨hblock, fun hs' => hblock.trans (executeBlock_of_leaving hs')⟩

/-- A loop whose last round is cut short. -/
def cutShort : List String := ["untuk x dalam [salah, benar]", "  lanjut", "akhir", "lapor benar"]

theorem written_lanjut : Written (.line "lanjut".toList .nil) ["  lanjut"] :=
  .line (by decide) (by decide) .nil

theorem loop_marks_cutShort :
    Loop.ofLine? (lineAt cutShort.toArray 0) =
      some (.counted (.over "x" (.items "[salah, benar]".toList))) ∧
    State.leaving { chance := .steady } = false ∧
    ∃ s', (statementAt (callFunction callDepth) cutShort.toArray 0).run.run { chance := .steady } =
        (.ok (), s') ∧
      s'.continuing = true ∧
      (executeBlock (callFunction callDepth) cutShort.toArray 0 4).run.run { chance := .steady } =
        (.ok (), s') := by
  have hl : Loop.ofLine? (lineAt cutShort.toArray 0) =
      some (.counted (.over "x" (.items "[salah, benar]".toList))) := rfl
  have hend : blockEnd cutShort.toArray 1 [closingWord] = 2 := by decide
  have hbody : executeBlock call cutShort.toArray 1 2 = (Tree.line "lanjut".toList .nil).run call 1 :=
    written_lanjut.executeBlock_eq rfl
      ⟨["untuk x dalam [salah, benar]"], ["akhir", "lapor benar"], rfl, rfl⟩ rfl
  obtain ⟨s', hrun, hleft⟩ : ∃ s', (statementAt call cutShort.toArray 0).run.run { chance := .steady } =
      (.ok (), s') ∧ s'.continuing = true := by
    rw [statementAt_of_loop hl, hend, hbody]
    exact ⟨_, eq_ok_of_isOk (by decide +kernel), by decide +kernel⟩
  refine ⟨hl, rfl, s', hrun, hleft, ?_⟩
  exact ((loop_marks callDepth hl rfl hrun).2.2 4 (by decide)).2 (State.leaving_of_continuing hleft)

/-! ## Loops that go on -/

theorem State.unmarked_eq_self {s : State} (hbreaking : s.breaking = false)
    (hcontinuing : s.continuing = false) : s.unmarked = s := by
  cases s
  cases hbreaking
  cases hcontinuing
  rfl

theorem run_playRound {body : Run Unit} {s u : State} (hbody : body.run.run s.unmarked = (.ok (), u))
    (hu : u.breaking = false) : (playRound body).run.run s = (.ok false, u) := by
  rw [playRound, run_modify_bind]
  refine (run_bind_of_ok _ hbody).trans ?_
  rw [run_get_bind, hu]
  rfl

/-- A loop whose condition holds and whose body does nothing ends with a warning. -/
theorem run_whileLoop_of_idle {condition : Run Bool} {body : Run Unit} {s : State}
    (hcondition : condition.run.run s = (.ok true, s)) (hs : s.unmarked = s)
    (hbody : body.run.run s = (.ok (), s)) (rounds : Nat) :
    (whileLoop condition body rounds).run.run s = (report Loop.warning).run.run s := by
  have hbreaking : s.breaking = false := congrArg State.breaking hs.symm
  have hround : (playRound body).run.run s = (.ok false, s) :=
    run_playRound (by rw [hs]; exact hbody) hbreaking
  induction rounds with
  | zero => exact run_bind_of_ok _ hcondition
  | succ rounds ih =>
    rw [whileLoop, run_bind_of_ok _ hcondition, if_pos rfl, run_bind_of_ok _ hround]
    exact ih

/-- The state after a program. -/
def stateAfter (ls : List String) : State :=
  ((executeBlock call ls.toArray 0 ls.length).run.run { chance := .steady }).2

theorem stateAfter_of_written {t : Tree} {ls : List String} (h : Written t ls)
    (hlegible : t.legible = true) :
    stateAfter ls = ((t.run call 0).run.run { chance := .steady }).2 := by
  have hat : LinesAt ls.toArray 0 ls := ⟨[], [], by simp, rfl⟩
  rw [stateAfter, h.executeBlock_eq hlegible hat (Nat.zero_add _).symm]

/-- A loop whose body leaves a function. -/
def leftInside : List String := ["untuk x dalam [salah, benar]", "  kembalikan kosong", "akhir"]

/-- A loop with a condition whose body leaves a function. -/
def leftForever : List String := ["selama benar", "  kembalikan kosong", "akhir"]

theorem written_kembalikan : Written (.line "kembalikan kosong".toList .nil) ["  kembalikan kosong"] :=
  .line (by decide) (by decide) .nil

theorem reports_leftForever : (stateAfter leftForever).reports = [Loop.warning] := by
  have hopens : Opens "selama " "benar".toList "selama benar" := ⟨"benar".toList, by decide, by decide⟩
  have hcloses : Says closingWord "akhir" := by decide
  have hafter := stateAfter_of_written (.loop hopens written_kembalikan hcloses .nil) rfl
  have hholds : ∀ s, Answers call s "benar".toList true := fun s => answers_of_literal rfl
  -- The first round leaves a function, and the others do nothing.
  obtain ⟨u, hbody, hbreaking, hcontinuing, hreturning, hreports⟩ : ∃ u : State,
      ((Tree.line "kembalikan kosong".toList .nil).run call 1).run.run { chance := .steady } =
        (.ok (), u) ∧
      u.breaking = false ∧ u.continuing = false ∧ u.returning = true ∧ u.reports = [] :=
    ⟨_, eq_ok_of_isOk (by decide +kernel), by decide +kernel⟩
  have hidle : ((Tree.line "kembalikan kosong".toList .nil).run call 1).run.run u = (.ok (), u) := by
    rw [Tree.run, inTurn, run_get_bind, State.leaving_of_returning hreturning]
    rfl
  have hloop : (whileLoop (holds call "benar".toList)
      ((Tree.line "kembalikan kosong".toList .nil).run call 1) roundLimit).run.run { chance := .steady } =
      (report Loop.warning).run.run u := by
    have hfirst := run_playRound (s := { chance := .steady }) hbody hbreaking
    rw [show roundLimit = 9999 + 1 from rfl, whileLoop, run_bind_of_ok _ (hholds _), if_pos rfl,
      run_bind_of_ok _ hfirst]
    exact run_whileLoop_of_idle (hholds u) (State.unmarked_eq_self hbreaking hcontinuing) hidle 9999
  have hend : stateAfter leftForever = ((report Loop.warning).run.run u).2 := by
    refine hafter.trans (congrArg Prod.snd ?_)
    rw [Tree.run, inTurn, run_get_bind, if_neg (by decide)]
    exact (run_bind_of_ok _ (hloop.trans rfl)).trans rfl
  rw [hend, ← hreports]
  rfl

/-- A loop may leave the mark of its last round, so that what follows is not executed. A loop goes on after
its body has left a function: it sets its variable again, or gives a warning in the end. -/
theorem loop_marks_not_contained :
    (stateAfter cutShort).continuing = true ∧ (stateAfter cutShort).printed = #[] ∧
    (stateAfter leftInside).returning = true ∧
    ((stateAfter leftInside).variables.get? "x").map (stateAfter leftInside).store.truthy = some true ∧
    (stateAfter leftForever).reports = [Loop.warning] := by
  have hopens : OpensLoop "x" (.items "[salah, benar]".toList) "untuk x dalam [salah, benar]" := by
    decide
  have hcloses : Says closingWord "akhir" := by decide
  have hnext : Written (.line "lapor benar".toList .nil) ["lapor benar"] :=
    .line (by decide) (by decide) .nil
  have hcut : stateAfter cutShort = _ :=
    stateAfter_of_written (.count hopens written_lanjut hcloses hnext) (by decide)
  have hinside : stateAfter leftInside = _ :=
    stateAfter_of_written (.count hopens written_kembalikan hcloses .nil) (by decide)
  rw [hcut, hinside]
  exact ⟨by decide +kernel, by decide +kernel, by decide +kernel, by decide +kernel, reports_leftForever⟩

end Birokrasi.Extended
