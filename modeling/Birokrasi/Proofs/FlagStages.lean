import Birokrasi.Challenge.Stages
import Birokrasi.Proofs.Outcome

/-!
# Parts of a flag are given out once

Stages are looked at again and again, with one state after the other (`checkEach`). Whatever the
conditions are, and even if they cease to hold later on, a stage is a latch: after some states it is
unlocked if one of them has met its condition (`checkEach_of_settled`). So the part of a stage is given
out by the first look that meets it and by no other one, and the whole flag is known as soon as every
stage has been met. The main statement is `parts_given_out_once`.

The order of the parts in the whole flag is that of the numbers of the stages, and stages with the same
number stay in the order that they were added in (`inOrder_mergeSort`).
-/

namespace Birokrasi.Challenge

open Birokrasi.Guard (Snapshot)

variable {s : Stage} {stages : List Stage} {state : Snapshot} {states : List Snapshot}

/-! ## One look -/

namespace Stage

/-- Whether a state meets the condition of a stage. -/
def met (s : Stage) (state : Snapshot) : Bool := s.condition state matches .ok true

/-- A stage after looks at some states. -/
def after (s : Stage) (states : List Snapshot) : Stage :=
  { s with unlocked := s.unlocked || states.any s.met }

@[simp] theorem met_after (s : Stage) (states : List Snapshot) : (s.after states).met = s.met := rfl

theorem after_nil (s : Stage) : s.after [] = s := by simp [after]

theorem after_cons (s : Stage) (state : Snapshot) (later : List Snapshot) :
    s.after (state :: later) = (s.after [state]).after later := by
  simp only [after, List.any_cons, List.any_nil, Bool.or_false, Bool.or_assoc]
  rfl

theorem check_of_ok {b : Bool} (h : s.condition state = .ok b) :
    s.check state =
      .ok (if !s.unlocked && s.met state then some s.part else none, s.after [state]) := by
  have hmet : s.met state = b := by cases b <;> simp [met, h]
  rw [check, h, hmet, ok_bind]
  obtain ⟨id, part, condition, unlocked⟩ := s
  cases unlocked <;> cases b <;> simp [after, hmet] <;> rfl

end Stage

/-- No condition of a stage fails on one of the states. -/
def Settled (stages : List Stage) (states : List Snapshot) : Prop :=
  ∀ s ∈ stages, ∀ state ∈ states, ∃ b, s.condition state = .ok b

theorem Settled.head (h : Settled stages (state :: states)) : Settled stages [state] := by
  intro s hs t ht
  rw [List.mem_singleton.1 ht]
  exact h s hs state List.mem_cons_self

theorem Settled.tail (h : Settled stages (state :: states)) : Settled stages states :=
  fun s hs t ht => h s hs t (List.mem_cons_of_mem state ht)

theorem Settled.after (h : Settled stages states) (past : List Snapshot) :
    Settled (stages.map (·.after past)) states := by
  intro t ht
  obtain ⟨s, hs, rfl⟩ := List.mem_map.1 ht
  exact h s hs

/-- A look gives out the parts of the stages that are met and have not been unlocked before. -/
theorem checkAll_of_settled (h : Settled stages [state]) :
    checkAll state stages =
      (.ok ((stages.filter fun s => !s.unlocked && s.met state).map Stage.part),
        stages.map (·.after [state])) := by
  induction stages with
  | nil => rfl
  | cons s stages ih =>
    obtain ⟨b, hb⟩ := h s List.mem_cons_self state List.mem_cons_self
    have hrest := ih fun t ht => h t (List.mem_cons_of_mem s ht)
    rw [checkAll, Stage.check_of_ok hb]
    simp only [hrest, Except.map, List.filter_cons, List.map_cons]
    split <;> rfl

/-! ## Look after look -/

/-- Looks at states one after the other: what each look gives out, and the stages afterwards. -/
def checkEach : List Snapshot → List Stage → List (Except Fault (List String)) × List Stage
  | [], stages => ([], stages)
  | state :: later, stages =>
    let (given, stages) := checkAll state stages
    let (givenLater, stages) := checkEach later stages
    (given :: givenLater, stages)

/-- The parts of the stages that are still locked and that the state with this number is the first one
to meet. -/
def firstGiven (stages : List Stage) (states : List Snapshot) (i : Nat) : List String :=
  (stages.filter fun s => !s.unlocked && states.findIdx? s.met = some i).map Stage.part

theorem firstGiven_zero (stages : List Stage) (state : Snapshot) (later : List Snapshot) :
    firstGiven stages (state :: later) 0 =
      (stages.filter fun s => !s.unlocked && s.met state).map Stage.part := by
  rw [firstGiven]
  congr 2
  funext s
  cases hm : s.met state <;> simp [List.findIdx?_cons, hm]

theorem firstGiven_succ (stages : List Stage) (state : Snapshot) (later : List Snapshot) (i : Nat) :
    firstGiven stages (state :: later) (i + 1) =
      firstGiven (stages.map (·.after [state])) later i := by
  rw [firstGiven, firstGiven, List.filter_map, List.map_map]
  congr 2
  funext s
  cases hm : s.met state <;> simp [Stage.after, List.findIdx?_cons, hm]

/-- What a number of looks give out, and the stages that they leave behind. -/
theorem checkEach_of_settled (h : Settled stages states) :
    checkEach states stages =
      ((List.range states.length).map fun i => .ok (firstGiven stages states i),
        stages.map (·.after states)) := by
  induction states generalizing stages with
  | nil => simp [checkEach, Stage.after_nil]
  | cons state later ih =>
    have hlater := ih (h.tail.after [state])
    rw [checkEach, checkAll_of_settled h.head, ← firstGiven_zero stages state later]
    simp only [hlater, List.length_cons, List.range_succ_eq_map, List.map_cons, List.map_map,
      Function.comp_def, Nat.succ_eq_add_one, firstGiven_succ, Stage.after_cons _ state later]

/-! ## The whole flag -/

/-- Stages in the order of their numbers, in which those with the same number have kept theirs. -/
structure InOrder (ordered stages : List Stage) : Prop where
  sorted : ordered.Pairwise fun s t => s.id ≤ t.id
  kept : ∀ id, (ordered.filter fun s => s.id = id) = stages.filter fun s => s.id = id

theorem inOrder_mergeSort (stages : List Stage) :
    InOrder (stages.mergeSort fun s t => s.id ≤ t.id) stages := by
  have htrans : ∀ s t u : Stage, decide (s.id ≤ t.id) = true → decide (t.id ≤ u.id) = true →
      decide (s.id ≤ u.id) = true := by
    simp only [decide_eq_true_eq]
    exact fun _ _ _ => Int.le_trans
  have htotal : ∀ s t : Stage, (decide (s.id ≤ t.id) || decide (t.id ≤ s.id)) = true := by
    simp only [Bool.or_eq_true, decide_eq_true_eq]
    exact fun s t => Int.le_total s.id t.id
  refine ⟨?_, fun id => ?_⟩
  · simpa only [decide_eq_true_eq] using List.pairwise_mergeSort htrans htotal stages
  · -- The stages of one number are sorted as they are, so they come through the sort in their order.
    have hsame : (stages.filter fun s => s.id = id).Pairwise fun s t => decide (s.id ≤ t.id) := by
      refine List.pairwise_of_forall_mem_list fun s hs t ht => ?_
      have hs : s.id = id := by simpa using (List.mem_filter.1 hs).2
      have ht : t.id = id := by simpa using (List.mem_filter.1 ht).2
      simp [hs, ht]
    have hsub := (List.sublist_mergeSort htrans htotal hsame List.filter_sublist).filter
      fun s => decide (s.id = id)
    simp only [List.filter_filter, Bool.and_self] at hsub
    exact (hsub.eq_of_length ((List.mergeSort_perm stages _).filter _).length_eq.symm).symm

theorem wholeFlag?_after (stages : List Stage) (states : List Snapshot) :
    wholeFlag? (stages.map (·.after states)) =
      if complete (stages.map (·.after states)) then
        some (String.join ((stages.mergeSort fun s t => s.id ≤ t.id).map Stage.part))
      else none := by
  have hsort : (stages.map (·.after states)).mergeSort (fun s t => s.id ≤ t.id) =
      (stages.mergeSort fun s t => s.id ≤ t.id).map (·.after states) := by
    rw [List.map_mergeSort]
    exact fun _ _ _ _ => rfl
  rw [wholeFlag?, hsort, List.map_map]
  rfl

/-! ## All looks -/

/-- A part that belongs to one stage only is among the parts of chosen stages if its stage is. -/
theorem part_mem_filter_iff {chosen : Stage → Bool} (hs : s ∈ stages)
    (honly : ∀ t ∈ stages, t.part = s.part → t = s) :
    s.part ∈ (stages.filter chosen).map Stage.part ↔ chosen s = true := by
  constructor
  · intro hmem
    obtain ⟨t, ht, heq⟩ := List.mem_map.1 hmem
    obtain ⟨ht, hchosen⟩ := List.mem_filter.1 ht
    rwa [← honly t ht heq]
  · intro hchosen
    exact List.mem_map_of_mem (List.mem_filter.2 ⟨hs, hchosen⟩)

theorem firstGiven_of_locked (hlocked : ∀ s ∈ stages, s.unlocked = false) (i : Nat) :
    firstGiven stages states i =
      (stages.filter fun s => states.findIdx? s.met = some i).map Stage.part := by
  rw [firstGiven]
  congr 1
  refine List.filter_congr fun s hs => ?_
  rw [hlocked s hs, Bool.not_false, Bool.true_and]

theorem complete_after_iff (hlocked : ∀ s ∈ stages, s.unlocked = false) :
    complete (stages.map (·.after states)) = true ↔
      ∀ s ∈ stages, ∃ state ∈ states, s.met state = true := by
  simp only [complete, List.all_map, List.all_eq_true, Function.comp_def, Stage.after]
  refine forall₂_congr fun s hs => ?_
  rw [hlocked s hs, Bool.false_or, List.any_eq_true]

/-- Of stages that are all locked, looked at with any states that make no condition fail:

* each look returns, and it gives out the parts of exactly those stages that its state is the first one
  to meet, in the order of the stages;
* so a part that belongs to one stage only is given out by the first look that meets the stage, and by
  no other one;
* all parts have been given out if and only if each stage has been met by one of the states;
* the whole flag is then made of all parts in the order of the numbers of their stages, and it is not
  known before. -/
theorem parts_given_out_once (hlocked : ∀ s ∈ stages, s.unlocked = false)
    (h : Settled stages states) :
    (checkEach states stages).1 =
      (List.range states.length).map (fun i =>
        .ok ((stages.filter fun s => states.findIdx? s.met = some i).map Stage.part)) ∧
    (∀ s ∈ stages, (∀ t ∈ stages, t.part = s.part → t = s) → ∀ i parts,
      (checkEach states stages).1[i]? = some (.ok parts) →
        (s.part ∈ parts ↔ states.findIdx? s.met = some i)) ∧
    (complete (checkEach states stages).2 = true ↔
      ∀ s ∈ stages, ∃ state ∈ states, s.met state = true) ∧
    ∃ ordered, InOrder ordered stages ∧
      wholeFlag? (checkEach states stages).2 =
        if complete (checkEach states stages).2 then some (String.join (ordered.map Stage.part))
        else none := by
  have hgiven := congrArg Prod.fst (checkEach_of_settled h)
  simp only [firstGiven_of_locked hlocked] at hgiven
  refine ⟨hgiven, ?_, ?_⟩
  · intro s hs honly i parts hparts
    rw [hgiven, List.getElem?_map, Option.map_eq_some_iff] at hparts
    obtain ⟨j, hj, heq⟩ := hparts
    obtain ⟨_, rfl⟩ := List.getElem?_eq_some_iff.1 hj
    rw [← Except.ok.inj heq, part_mem_filter_iff hs honly, decide_eq_true_eq, List.getElem_range]
  · rw [checkEach_of_settled h]
    exact ⟨complete_after_iff hlocked, _, inOrder_mergeSort stages, wholeFlag?_after stages states⟩

/-- Three stages, of which the last two have the same number. -/
def trial : List Stage :=
  [{ id := 2, part := "end\x7d", condition := fun state => .ok (state "done").isSome },
    { id := 1, part := "FLAG\x7b", condition := fun state => .ok (state "started").isSome },
    { id := 1, part := "mid_", condition := fun state => .ok (state "done").isNone }]

/-- The second stage is met by the second state and no longer by the third, and two stages are met at
once. -/
theorem parts_given_out_once_trial :
    let states : List Snapshot :=
      [fun name => if name = "done" then some (.int 1) else none,
        fun name => if name = "started" then some (.int 1) else none, fun _ => none]
    (∀ s ∈ trial, s.unlocked = false) ∧ Settled trial states ∧
      (checkEach states trial).1 = [.ok ["end\x7d"], .ok ["FLAG\x7b", "mid_"], .ok []] ∧
      complete (checkEach states trial).2 = true ∧
      ∃ ordered, InOrder ordered trial ∧
        wholeFlag? (checkEach states trial).2 = some (String.join (ordered.map Stage.part)) := by
  intro states
  have hlocked : ∀ s ∈ trial, s.unlocked = false := by simp [trial]
  have hsettled : Settled trial states := by
    intro s hs state _
    simp only [trial, List.mem_cons, List.not_mem_nil, or_false] at hs
    rcases hs with rfl | rfl | rfl <;> exact ⟨_, rfl⟩
  obtain ⟨hgiven, -, -, ordered, hordered, hflag⟩ := parts_given_out_once hlocked hsettled
  have hcomplete : complete (checkEach states trial).2 = true := by decide
  rw [hcomplete, if_pos rfl] at hflag
  exact ⟨hlocked, hsettled, hgiven, hcomplete, ordered, hordered, hflag⟩

end Birokrasi.Challenge
