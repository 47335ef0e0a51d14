import Birokrasi.Proofs.Agreement
import Birokrasi.Proofs.RunStates

/-!
# How runs end

The rounds of a run end by a failure, by the operation that finishes runs, behind the code, or because
the step limit leaves no more of them. The last end is no failure. A round that looked at the limit itself
would never find it exceeded, since no round begins unless its step is below the limit
(`checkedLoop_eq_loop`). So a run that is cut off answers as one that has finished
(`answer_of_cut_off_run`).
-/

namespace Birokrasi.Machine

open Birokrasi.Bytecode

/-! ## Rounds -/

/-- The count of the steps, the limit and the code of a machine. -/
structure Tally (steps : Nat) (limit : Int) (code : Array UInt8) (m : Machine) : Prop where
  steps : m.steps = steps
  limit : m.stepLimit = limit
  code : m.code = code

variable {delay : Value} {m m' : Machine}

section Tally

variable {steps : Nat} {limit : Int} {code : Array UInt8}

theorem parallel_tally :
    Parallel (fun _ _ => Same (Tally steps limit code)) (Same (Tally steps limit code)) :=
  parallel_same (fun _ h => { h with }) (fun _ h => { h with }) (fun _ h => { h with })
    (fun _ h => { h with })

theorem keeps_execute_tally (op : Int) : Keeps (Tally steps limit code) (execute op) :=
  keeps_execute parallel_tally (fun _ _ h => { h with }) (fun _ _ h => { h with }) op

theorem keeps_proceed_tally (b : UInt8) : Keeps (Tally steps limit code) (proceed delay b) := by
  refine (keeps_execute_tally _).bind fun more => .ite ?_ (.pure false)
  refine (keeps_calculate _).bind fun late => .ite (.bind ?_ fun _ => .pure true) (.pure true)
  exact (keeps_calculate _).bind fun _ => .modify fun _ h => { h with }

end Tally

/-- A round counts one step and changes neither the limit nor the code, also if it fails. -/
theorem tally_round (delay : Value) (m : Machine) :
    Tally (m.steps + 1) m.stepLimit m.code (perform (round delay) m).2 := by
  have hcounted : Tally (m.steps + 1) m.stepLimit m.code m.counted := ⟨rfl, rfl, rfl⟩
  cases hb : m.counted.byteAt? m.pc with
  | none =>
    rw [perform_round_of_error _ (perform_fetch_none hb)]
    exact hcounted
  | some b =>
    rw [perform_round_of_fetch _ (perform_fetch hb)]
    refine keeps_proceed_tally b _ ?_
    unfold announced
    split
    · exact { hcounted with }
    · exact hcounted

theorem opcode?_of_execute_false {code : Int} (h : perform (execute code) m = (.ok false, m')) :
    opcode? code = some .finish := by
  unfold execute at h
  cases hop : opcode? code with
  | none =>
    rw [hop] at h
    obtain ⟨u, m₁, -, hreturn⟩ := run_bind_eq_ok.1 h
    cases congrArg Prod.fst hreturn
  | some op =>
    rw [hop] at h
    obtain ⟨u, m₁, -, hreturn⟩ := run_bind_eq_ok.1 h
    have hanswer : decide (some op ≠ some Opcode.finish) = false :=
      Except.ok.inj (congrArg Prod.fst hreturn)
    simpa using hanswer

/-- No more rounds follow one that executes the operation that finishes runs, and only that one. -/
theorem byteAt?_of_round_false (h : perform (round delay) m = (.ok false, m')) :
    m.byteAt? m.pc = some Opcode.finish.byte := by
  cases hb : m.counted.byteAt? m.pc with
  | none =>
    rw [perform_round_of_error _ (perform_fetch_none hb)] at h
    cases congrArg Prod.fst h
  | some b =>
    rw [perform_round_of_fetch _ (perform_fetch hb)] at h
    obtain ⟨more, m₁, hexec, hrest⟩ := run_bind_eq_ok.1 h
    cases more with
    | false =>
      rw [← eq_byte_of_opcode? (opcode?_of_execute_false hexec)]
      exact hb
    | true =>
      -- A round that goes on says so, whether it waits or not.
      obtain ⟨late, m₂, -, hwait⟩ := run_bind_eq_ok.1 hrest
      cases late with
      | false => cases congrArg Prod.fst hwait
      | true =>
        obtain ⟨u, m₃, -, hreturn⟩ := run_bind_eq_ok.1 hwait
        cases congrArg Prod.fst hreturn

/-! ## A limit that is looked at twice -/

/-- Rounds as long as there is code and the count of the steps is below the limit, where a round whose
own step exceeds the limit fails. -/
def checkedLoop (e : Failure) (delay : Value) :
    (fuel : Nat) → Machine → Except Failure Unit × Machine
  | 0, m => (.ok (), m)
  | fuel + 1, m =>
    if m.pc < m.code.size ∧ (m.steps : Int) < m.stepLimit then
      if m.stepLimit < m.counted.steps then (.error e, m.counted)
      else
        match perform (round delay) m with
        | (.ok true, m) => checkedLoop e delay fuel m
        | (.ok false, m) => (.ok (), m)
        | (.error e, m) => (.error e, m)
    else (.ok (), m)

/-- The second look never fails: the rounds are those that the limit leaves. -/
theorem checkedLoop_eq_loop (e : Failure) (delay : Value) (fuel : Nat) (m : Machine)
    (hfuel : m.roundsLeft ≤ fuel) :
    checkedLoop e delay fuel m = loop delay m.roundsLeft m := by
  induction fuel generalizing m with
  | zero =>
    rw [Nat.le_zero.1 hfuel]
    rfl
  | succ fuel ih =>
    unfold checkedLoop
    by_cases hlimit : (m.steps : Int) < m.stepLimit
    · have hsecond : ¬ m.stepLimit < m.counted.steps := by
        show ¬ m.stepLimit < ((m.steps + 1 : Nat) : Int)
        omega
      obtain ⟨rounds, hrounds⟩ : ∃ rounds, m.roundsLeft = rounds + 1 :=
        ⟨m.roundsLeft - 1, by unfold roundsLeft; omega⟩
      rw [hrounds, loop, if_neg hsecond]
      by_cases hcode : m.pc < m.code.size
      · rw [if_pos ⟨hcode, hlimit⟩, if_pos hcode]
        have htally := tally_round delay m
        generalize perform (round delay) m = outcome at htally
        obtain ⟨e' | more, m'⟩ := outcome
        · rfl
        · cases more with
          | false => rfl
          | true =>
            have hleft : m'.roundsLeft = rounds := by
              have hsteps : m'.steps = m.steps + 1 := htally.steps
              have hlimit' : m'.stepLimit = m.stepLimit := htally.limit
              unfold roundsLeft at hrounds ⊢
              omega
            exact (ih m' (by omega)).trans (by rw [hleft])
      · rw [if_neg fun h => hcode h.1, if_neg hcode]
    · have hrounds : m.roundsLeft = 0 := by
        unfold roundsLeft
        omega
      rw [if_neg fun h => hlimit h.2, hrounds]
      rfl

/-! ## Ends -/

/-- The state in which the rounds of a run end. -/
def last (delay : Value) (m : Machine) : Machine := (loop delay m.roundsLeft m).2

/-- The rounds of a run end without a failure and without the operation that finishes runs, although
there is code left. -/
structure CutOff (delay : Value) (m : Machine) : Prop where
  calm : (loop delay m.roundsLeft m).1 = .ok ()
  unfinished : Opcode.finish.byte ∉ m.executed delay
  remaining : (m.last delay).pc < m.code.size

/-- How a run answers whose rounds have ended without a failure. -/
def answer (challenge : Bool) (m : Machine) : Bool × Machine :=
  if challenge then conclude (perform awardFlag m).1 (perform awardFlag m).2 else (true, m)

theorem run_of_ok {challenge : Bool} (h : (loop delay m.roundsLeft m).1 = .ok ()) :
    run delay challenge m = (m.last delay).answer challenge := by
  unfold run last
  generalize loop delay m.roundsLeft m = outcome at h
  obtain ⟨r, m'⟩ := outcome
  cases h
  cases challenge <;> rfl

theorem run_of_error {challenge : Bool} {e : Failure}
    (h : (loop delay m.roundsLeft m).1 = .error e) :
    run delay challenge m = conclude (.error e) (m.last delay) := by
  unfold run last
  generalize loop delay m.roundsLeft m = outcome at h
  obtain ⟨r, m'⟩ := outcome
  cases h
  rfl

/-- Rounds that end before the operation that finishes runs, and with code left, are all that there
were to be. -/
theorem steps_of_loop (rounds : Nat) {m m' : Machine} (hend : loop delay rounds m = (.ok (), m'))
    (hfinish : ∀ s ∈ (course delay).begun rounds m, s.byteAt? s.pc ≠ some Opcode.finish.byte)
    (hcode : m'.pc < m.code.size) : m'.steps = m.steps + rounds := by
  induction rounds generalizing m with
  | zero =>
    cases hend
    rfl
  | succ rounds ih =>
    rw [loop] at hend
    rw [Course.begun] at hfinish
    by_cases hdue : m.pc < m.code.size
    · rw [if_pos hdue] at hend
      rw [if_pos (show (course delay).due m = true from decide_eq_true hdue),
        List.forall_mem_cons] at hfinish
      obtain ⟨hbyte, hrest⟩ := hfinish
      have htally := tally_round delay m
      cases hround : perform (round delay) m with
      | mk r m₁ =>
        have hround' : (course delay).round.run.run m = (r, m₁) := hround
        rw [hround] at hend htally
        rw [hround'] at hrest
        rcases r with e | more
        · cases congrArg Prod.fst hend
        · cases more with
          | false => exact absurd (byteAt?_of_round_false hround) hbyte
          | true =>
            have hsteps := ih hend hrest (by rw [htally.code]; exact hcode)
            have hone : m₁.steps = m.steps + 1 := htally.steps
            omega
    · rw [if_neg hdue] at hend
      cases hend
      exact absurd hcode hdue

/-- A run that is cut off has made all the rounds that the limit left. -/
theorem CutOff.steps (h : CutOff delay m) : (m.last delay).steps = m.steps + m.roundsLeft := by
  refine steps_of_loop m.roundsLeft (Prod.ext h.calm rfl) (fun s hs hbyte => ?_) h.remaining
  exact h.unfinished (List.mem_filterMap.2 ⟨s, hs, hbyte⟩)

/-- Whatever the code, the state at the start and the limit are, a run that says that all is well has
executed the operation that finishes runs, or has come behind the code, or is cut off after as many
steps as the limit says. A run that is cut off answers as the other two do: without a challenge it says
that all is well and prints nothing more. Only failures make a run say no, and the limit is none of them,
although each round might look at it again. -/
theorem answer_of_cut_off_run (delay : Value) (challenge : Bool) (m : Machine) :
    let ended := run delay challenge m
    (∀ e fuel, m.roundsLeft ≤ fuel → checkedLoop e delay fuel m = loop delay m.roundsLeft m) ∧
    (ended.1 = true → Opcode.finish.byte ∈ m.executed delay ∨
      m.code.size ≤ (m.last delay).pc ∨ m.CutOff delay) ∧
    (m.CutOff delay → ((m.last delay).steps : Int) = max m.stepLimit m.steps ∧
      ended = (m.last delay).answer challenge) ∧
    (challenge = false → (m.CutOff delay → ended = (true, m.last delay)) ∧
      (ended.1 = false ↔ ∃ e, (loop delay m.roundsLeft m).1 = .error e)) := by
  intro ended
  refine ⟨fun e fuel hfuel => checkedLoop_eq_loop e delay fuel m hfuel, ?_, ?_, ?_⟩
  · intro hanswer
    cases hcalm : (loop delay m.roundsLeft m).1 with
    | error e =>
      rw [show ended = _ from run_of_error hcalm] at hanswer
      cases hanswer
    | ok u =>
      by_cases hfinish : Opcode.finish.byte ∈ m.executed delay
      · exact .inl hfinish
      · by_cases hcode : (m.last delay).pc < m.code.size
        · exact .inr (.inr ⟨hcalm, hfinish, hcode⟩)
        · exact .inr (.inl (by omega))
  · intro hcut
    refine ⟨?_, run_of_ok hcut.calm⟩
    have hsteps := hcut.steps
    unfold roundsLeft at hsteps
    omega
  · rintro rfl
    refine ⟨fun hcut => run_of_ok hcut.calm, ?_⟩
    cases hcalm : (loop delay m.roundsLeft m).1 with
    | error e =>
      rw [show ended = _ from run_of_error hcalm]
      exact ⟨fun _ => ⟨e, rfl⟩, fun _ => rfl⟩
    | ok u =>
      rw [show ended = _ from run_of_ok hcalm]
      constructor
      · intro h
        cases h
      · rintro ⟨e, h⟩
        cases h

/-- Goes in a circle. -/
def circle : Image where
  code := [0x40, 0x00, 0x00]

theorem cutOff_circle : (start .plain circle 0 3 false).CutOff (.float 0.0) where
  calm := rfl
  unfinished := by decide +kernel
  remaining := by decide +kernel

theorem answer_of_cut_off_run_circle :
    (start .plain circle 0 3 false).CutOff (.float 0.0) ∧
    (((start .plain circle 0 3 false).last (.float 0.0)).steps : Int) = max 3 0 ∧
    run (.float 0.0) false (start .plain circle 0 3 false) =
      (true, (start .plain circle 0 3 false).last (.float 0.0)) := by
  obtain ⟨-, -, hsteps, hanswer⟩ := answer_of_cut_off_run (.float 0.0) false
    (start .plain circle 0 3 false)
  exact ⟨cutOff_circle, (hsteps cutOff_circle).1, (hanswer rfl).1 cutOff_circle⟩

/-- A run in a circle says that all is well, and prints nothing, although it has neither finished nor
come behind its code. -/
theorem cut_off_run_not_reported :
    (run (.float 0.0) false (start .plain circle 0 3 false)).1 = true ∧
    (run (.float 0.0) false (start .plain circle 0 3 false)).2.printed = #[] ∧
    (run (.float 0.0) false (start .plain circle 0 3 false)).2.pc < circle.code.length ∧
    Opcode.finish.byte ∉ (start .plain circle 0 3 false).executed (.float 0.0) :=
  ⟨by decide +kernel, by decide +kernel, by decide +kernel, cutOff_circle.unfinished⟩

end Birokrasi.Machine
