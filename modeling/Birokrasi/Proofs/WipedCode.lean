import Birokrasi.Proofs.Inspections
import Birokrasi.Proofs.NextAddresses
import Birokrasi.Proofs.RunEndings

/-!
# Where the mutator wipes code

The mutator is asked after every tenth step, with the address that the run has come to. After an
operation that takes money this is the address behind it, so what the mutator wipes out, from the
second time on, is the byte behind the operation. The code of a running machine is the original one
with exactly these bytes wiped out, and the mutator fails if the operation is the last one of the
code (`wiped_behind_embezzlement`).
-/

namespace Birokrasi.Machine

open Birokrasi.Bytecode
open Birokrasi.Disguise (Mutator writeByte_natCast)

theorem pc_of_embezzle {m m' : Machine} {more : Bool}
    (h : perform (Guarded.execute Opcode.embezzle.byte.toNat) m = (.ok more, m')) :
    m'.pc = m.pc + 1 := by
  rw [Guarded.execute_byte_eq (by decide)] at h
  exact pc_of_execute h

theorem tally_of_execute {m m' : Machine} {code : Int} {r : Except Failure Bool}
    (h : perform (Guarded.execute code) m = (r, m')) : m'.steps = m.steps ∧ m'.code = m.code := by
  have htally := (Guarded.keeps_execute (keeps_execute_tally code)).of_run h ⟨rfl, rfl, rfl⟩
  exact ⟨htally.steps, htally.code⟩

/-! ## Code with bytes wiped out -/

/-- Code with the bytes behind some addresses wiped out. -/
def wiped (code : Array UInt8) (addresses : List Nat) : Array UInt8 :=
  addresses.foldl (fun code a => code.setIfInBounds (a + 1) Opcode.nop.byte) code

variable {code : Array UInt8} {addresses : List Nat}

theorem wiped_append (addresses more : List Nat) :
    wiped code (addresses ++ more) = wiped (wiped code addresses) more := List.foldl_append

theorem getElem?_wiped (code : Array UInt8) (addresses : List Nat) (i : Nat) :
    (wiped code addresses)[i]? =
      code[i]?.map fun b => if ∃ a ∈ addresses, i = a + 1 then Opcode.nop.byte else b := by
  induction addresses generalizing code with
  | nil => simp [wiped]
  | cons a rest ih =>
    rw [show wiped code (a :: rest) = wiped (code.setIfInBounds (a + 1) Opcode.nop.byte) rest from rfl, ih,
      Array.getElem?_setIfInBounds]
    by_cases hi : a + 1 = i
    · subst hi
      by_cases hlt : a + 1 < code.size
      · simp [hlt]
      · simp [hlt]
    · simp [hi, Ne.symm hi]

theorem size_wiped (code : Array UInt8) (addresses : List Nat) :
    (wiped code addresses).size = code.size := by
  induction addresses generalizing code with
  | nil => rfl
  | cons a rest ih => exact (ih _).trans Array.size_setIfInBounds

/-- A byte is wiped out once and for all. -/
theorem wiped_of_mem {a : Nat} (h : a ∈ addresses) :
    (wiped code addresses).setIfInBounds (a + 1) Opcode.nop.byte = wiped code addresses := by
  apply Array.ext_getElem?
  intro i
  rw [Array.getElem?_setIfInBounds]
  split
  next hi =>
    subst hi
    rw [size_wiped, getElem?_wiped]
    split
    next hlt => simp [hlt, h]
    next hlt => simp [hlt]
  next => rfl

/-- What is no wiped byte was there before. -/
theorem getElem?_of_wiped {i : Nat} {b : UInt8} (h : (wiped code addresses)[i]? = some b)
    (hb : b ≠ Opcode.nop.byte) : code[i]? = some b := by
  rw [getElem?_wiped] at h
  obtain ⟨b', hb', heq⟩ := Option.map_eq_some_iff.1 h
  split at heq
  · exact absurd heq.symm hb
  · rw [hb', heq]

namespace Guarded

variable {g g' t : Guarded} {op : UInt8} {delay : Value}

/-! ## Rounds -/

/-- The answer of the mutator after an operation, if it is asked. -/
def consulted (op : UInt8) (g : Guarded) : Option (Except Fault (Array UInt8 × Mutator)) :=
  if g.core.steps % 10 = 0 then some (g.mutator.afterOperation g.core.code g.core.pc op.toNat) else none

/-- The answer of the mutator in a round that begins here, if it is asked. -/
def mutation (g : Guarded) : Option (Except Fault (Array UInt8 × Mutator)) :=
  match inspect.run.run g with
  | (.ok (some op), g') =>
    match perform (execute op.toNat) g'.core with
    | (.ok true, core) => consulted op { g' with core }
    | _ => none
  | _ => none

/-- What the answer of the mutator makes of a machine. -/
def mutated (answer : Option (Except Fault (Array UInt8 × Mutator))) (g : Guarded) : Guarded :=
  match answer with
  | some (.ok (code, mutator)) => { g with core := { g.core with code }, mutator }
  | _ => g

/-- The last part of a round: the delay is waited for. -/
def pause (delay : Value) : Act Bool := do
  if (← onCore (calculate (delay.greater (.int 0)))) then onCore (wait delay)
  return true

theorem run_pause (delay : Value) (g : Guarded) :
    ∃ r waits, (pause delay).run.run g = (r, { g with core := { g.core with waits } }) := by
  have hcore {α : Type} {r : Run α} (hr : Keeps (fun m => ∃ waits, m = { g.core with waits }) r) :
      Keeps (fun g' : Guarded => ∃ waits, g' = { g with core := { g.core with waits } })
        (onCore r) := by
    rintro g' ⟨waits, rfl⟩
    obtain ⟨waits', hrun⟩ := hr _ ⟨waits, rfl⟩
    rw [run_onCore]
    exact ⟨waits', congrArg (fun core => { g with core }) hrun⟩
  have hwait : Keeps (fun m => ∃ waits, m = { g.core with waits }) (wait delay) := by
    refine (keeps_calculate _).bind fun _ => .modify ?_
    rintro m ⟨waits, rfl⟩
    exact ⟨waits.push delay, rfl⟩
  have hpause : Keeps (fun g' : Guarded => ∃ waits, g' = { g with core := { g.core with waits } })
      (pause delay) :=
    (hcore (keeps_calculate _)).bind fun late =>
      .ite ((hcore hwait).bind fun _ => .pure true) (.pure true)
  obtain ⟨waits, hrun⟩ := hpause g ⟨g.core.waits, rfl⟩
  exact ⟨_, waits, Prod.ext rfl hrun⟩

/-- A failure of the mutator is one of the round; otherwise the delay is waited for. -/
theorem run_follow (delay : Value) (op : UInt8) (g : Guarded) :
    (∃ f, g.consulted op = some (.error f) ∧
      (follow delay op true).run.run g = (.error (.fault f), g)) ∨
    (∀ f, g.consulted op ≠ some (.error f)) ∧ ∃ r waits, (follow delay op true).run.run g =
      (r, { mutated (g.consulted op) g with
        core := { (mutated (g.consulted op) g).core with waits } }) := by
  unfold consulted
  by_cases hten : g.core.steps % 10 = 0
  · simp only [if_pos hten]
    cases hanswer : g.mutator.afterOperation g.core.code g.core.pc op.toNat with
    | error f =>
      have hmutator : (consultMutator op).run.run g = (.error (.fault f), g) := by
        refine (run_get_bind _ _).trans ?_
        rw [hanswer]
        rfl
      refine .inl ⟨f, rfl, (run_get_bind _ _).trans ?_⟩
      rw [if_pos hten]
      exact run_bind_of_error _ hmutator
    | ok changed =>
      obtain ⟨code, mutator⟩ := changed
      have hmutator : (consultMutator op).run.run g =
          (.ok (), { g with core := { g.core with code }, mutator }) := by
        refine (run_get_bind _ _).trans ?_
        rw [hanswer]
        rfl
      obtain ⟨r, waits, hrun⟩ := run_pause delay { g with core := { g.core with code }, mutator }
      refine .inr ⟨fun _ h => (by cases h), r, waits, (run_get_bind _ _).trans ?_⟩
      rw [if_pos hten]
      exact (run_bind_of_ok _ hmutator).trans hrun
  · simp only [if_neg hten]
    obtain ⟨r, waits, hrun⟩ := run_pause delay g
    refine .inr ⟨fun _ h => (by cases h), r, waits, (run_get_bind _ _).trans ?_⟩
    rw [if_neg hten]
    exact hrun

/-- What an inspection leaves alone. -/
structure Untouched (g g' : Guarded) : Prop where
  code : g'.core.code = g.core.code
  pc : g'.core.pc = g.core.pc
  mutator : g'.mutator = g.mutator
  mapping : g'.mapping = g.mapping
  watch : g'.shield.watch = g.shield.watch

theorem Passed.untouched (h : Passed op g g') : Untouched g g' := by
  obtain ⟨printed, hcore⟩ := h.core
  exact ⟨by rw [hcore]; rfl, by rw [hcore]; rfl, h.mutator, h.mapping, h.watch⟩

theorem untouched_inspect (hwatch : g.shield.watch.detected = false) :
    Untouched g (inspect.run.run g).2 := by
  have hend := inspection hwatch
  generalize inspect.run.run g = outcome at hend
  cases hend with
  | refused | left | missing => exact ⟨rfl, rfl, rfl, rfl, rfl⟩
  | passed _ _ hpassed => exact hpassed.untouched
  | failed _ _ _ hpassed => exact hpassed.untouched

/-- What a round does about the code, if this is what the mutator answers. -/
structure Rounded (answer : Option (Except Fault (Array UInt8 × Mutator))) (g g' : Guarded) : Prop where
  code : g'.core.code = (mutated answer g).core.code
  mutator : g'.mutator = (mutated answer g).mutator
  forward : Forward g.core → Forward g'.core
  mapping : g'.mapping = g.mapping
  watch : g'.shield.watch = g.shield.watch

theorem Untouched.rounded (h : Untouched g g') : Rounded none g g' :=
  ⟨h.code, h.mutator, fun hpc => by rw [Forward, h.pc]; exact hpc, h.mapping, h.watch⟩

/-- The operation changes neither the code nor the guard. -/
theorem Rounded.execute {op : Int} {r : Except Failure Bool} {m : Machine} (h : Rounded none g g')
    (hexec : perform (execute op) g'.core = (r, m)) : Rounded none g { g' with core := m } where
  code := (tally_of_execute hexec).2.trans h.code
  mutator := h.mutator
  forward hpc := (keeps_execute (keeps_execute_forward op)).of_run hexec (h.forward hpc)
  mapping := h.mapping
  watch := h.watch

/-- The answer of the mutator is what a round does about the code, also if it waits then. -/
theorem Rounded.answer (h : Rounded none g g')
    (answer : Option (Except Fault (Array UInt8 × Mutator))) (waits : Array Value) :
    Rounded answer g
      { mutated answer g' with core := { (mutated answer g').core with waits } } := by
  have hcode : g'.core.code = g.core.code := h.code
  have hmutator : g'.mutator = g.mutator := h.mutator
  rcases answer with _ | f | ⟨code, mutator⟩
  · exact ⟨hcode, hmutator, h.forward, h.mapping, h.watch⟩
  · exact ⟨hcode, hmutator, h.forward, h.mapping, h.watch⟩
  · exact ⟨rfl, rfl, h.forward, h.mapping, h.watch⟩

/-- A round does to the code what the mutator answers, and fails if the mutator does. -/
theorem rounded (hwatch : g.shield.watch.detected = false) (delay : Value) :
    Rounded g.mutation g ((round delay).run.run g).2 ∧
      ∀ f, g.mutation = some (.error f) → ((round delay).run.run g).1 = .error (.fault f) := by
  have hinspect := (untouched_inspect hwatch).rounded
  rw [round_eq_inspect, mutation]
  cases hrun : inspect.run.run g with
  | mk r g₁ =>
    rw [hrun] at hinspect
    rcases r with e | _ | op
    · rw [run_bind_of_error _ hrun]
      exact ⟨hinspect, fun _ h => by cases h⟩
    · rw [run_bind_of_ok _ hrun]
      exact ⟨hinspect, fun _ h => by cases h⟩
    rw [run_bind_of_ok _ hrun, fulfil]
    have honCore := run_onCore (execute op.toNat) g₁
    cases hexec : perform (execute op.toNat) g₁.core with
    | mk r m =>
      rw [hexec] at honCore
      have hafter := hinspect.execute hexec
      rcases r with e | _ | _
      · rw [run_bind_of_error _ honCore]
        simp only [hexec]
        exact ⟨hafter, fun _ h => by cases h⟩
      · rw [run_bind_of_ok _ honCore]
        simp only [hexec]
        exact ⟨hafter, fun _ h => by cases h⟩
      · rw [run_bind_of_ok _ honCore]
        simp only [hexec]
        obtain ⟨f, hfails, hfollow⟩ | ⟨hanswers, r, waits, hfollow⟩ :=
          run_follow delay op { g₁ with core := m }
        · rw [hfollow, hfails]
          refine ⟨hafter.answer _ m.waits, fun f' hf' => ?_⟩
          cases hf'
          rfl
        · rw [hfollow]
          exact ⟨hafter.answer _ waits, fun f hf => absurd hf (hanswers f)⟩

/-! ## The mutator -/

theorem afterOperation_of_ne (m : Mutator) (code : Array UInt8) (pc : Int)
    (h : op ≠ Opcode.embezzle.byte) : m.afterOperation code pc op.toNat = .ok (code, m) := by
  have hne : (op.toNat : Int) ≠ Opcode.embezzle.byte.toNat := fun heq =>
    h (UInt8.toNat_inj.1 (Int.ofNat_inj.1 heq))
  simp [Mutator.afterOperation, hne]
  rfl

/-- The first operation that takes money is only counted; behind the others a byte is wiped out. -/
theorem afterOperation_embezzle (m : Mutator) (code : Array UInt8) (a : Nat) :
    m.afterOperation code ((a : Int) + 1) Opcode.embezzle.byte.toNat =
      if ((a : Int) + 1) ∈ m.changed then .ok (code, m)
      else if m.counter = 0 then .ok (code, { m with counter := 1 })
      else if a + 1 < code.size then
        .ok (code.setIfInBounds (a + 1) Opcode.nop.byte,
          { m with counter := m.counter + 1, changed := ((a : Int) + 1) :: m.changed })
      else .error (.indexRange .buffer) := by
  have hwrite := writeByte_natCast code (a + 1) Opcode.nop.byte
  rw [Int.natCast_add, Int.natCast_one] at hwrite
  unfold Mutator.afterOperation
  by_cases hmem : ((a : Int) + 1) ∈ m.changed
  · simp [hmem]
    rfl
  by_cases hzero : m.counter = 0
  · simp [hmem, hzero]
    rfl
  have hcount : 1 ≤ m.counter := by omega
  by_cases hlt : a + 1 < code.size
  · simp [hmem, hzero, hcount, hwrite, hlt]
  · simp [hmem, hzero, hcount, hwrite, hlt]

/-- A round in which the mutator is asked after an operation that takes money. -/
def strikes (g : Guarded) : Bool :=
  decide (g.operation? = some Opcode.embezzle.byte) && g.mutation.isSome

/-- The addresses of the operations that took money when the mutator was asked. -/
def struck (past : List Guarded) : List Nat := (past.filter strikes).map fun g => g.core.pc.toNat

/-- The mutator has something to say only about operations that take money, and is told the address
behind them. -/
theorem mutation_cases (hwatch : g.shield.watch.detected = false) (hmapping : g.mapping = none) :
    (g.strikes = false ∧ (g.mutation = none ∨ g.mutation = some (.ok (g.core.code, g.mutator)))) ∨
    (g.strikes = true ∧ g.core.byteAt? g.core.pc = some Opcode.embezzle.byte ∧
      g.mutation =
        some (g.mutator.afterOperation g.core.code (g.core.pc + 1) Opcode.embezzle.byte.toNat)) := by
  have hend := inspection hwatch
  have hnone (h : g.mutation = none) : g.strikes = false := by simp [strikes, h]
  cases hrun : inspect.run.run g with
  | mk r g' =>
    rw [hrun] at hend
    cases hend with
    | refused | left | missing | failed =>
      have hmutation : g.mutation = none := by rw [mutation, hrun]
      exact .inl ⟨hnone hmutation, .inl hmutation⟩
    | @passed b _ hcalm hb hpassed =>
      have hreveal : g.reveal b = b := by rw [reveal, hmapping]
      rw [hreveal] at hrun hpassed
      have hoperation : g.operation? = some b := by rw [operation?, hrun]
      cases hexec : perform (execute b.toNat) g'.core with
      | mk r m =>
        by_cases hasked : r = .ok true ∧ m.steps % 10 = 0
        · obtain ⟨rfl, hten⟩ := hasked
          have hmutation : g.mutation = some (g.mutator.afterOperation g.core.code m.pc b.toNat) := by
            have huntouched := hpassed.untouched
            simp only [mutation, hrun, hexec, consulted, hten, if_true, huntouched.mutator,
              (tally_of_execute hexec).2, huntouched.code]
          by_cases hop : b = Opcode.embezzle.byte
          · subst hop
            have hpc := pc_of_embezzle hexec
            rw [hpassed.untouched.pc] at hpc
            rw [hpc] at hmutation
            exact .inr ⟨by simp [strikes, hoperation, hmutation], hb, hmutation⟩
          · rw [afterOperation_of_ne _ _ _ hop] at hmutation
            exact .inl ⟨by simp [strikes, hoperation, hop], .inr hmutation⟩
        · have hmutation : g.mutation = none := by
            rcases r with e | _ | _
            · simp only [mutation, hrun, hexec]
            · simp only [mutation, hrun, hexec]
            · have hten : ¬ m.steps % 10 = 0 := fun hten => hasked ⟨rfl, hten⟩
              simp only [mutation, hrun, hexec, consulted, hten, if_false]
          exact .inl ⟨hnone hmutation, .inl hmutation⟩

/-! ## Runs -/

/-- What is known of a machine that began with this code and struck at
these addresses. -/
structure Wiping (original : Array UInt8) (addresses : List Nat) (g : Guarded) : Prop where
  undetected : g.shield.watch.detected = false
  mapping : g.mapping = none
  forward : Forward g.core
  code : g.core.code = wiped original (addresses).tail
  embezzles : ∀ a ∈ addresses, original[a]? = some Opcode.embezzle.byte
  counter : g.mutator.counter = 0 ↔ addresses = []
  changed : ∀ x ∈ g.mutator.changed,
    ∃ a ∈ (addresses).tail, x = (a : Int) + 1 ∧ a + 1 < original.size

variable {original : Array UInt8} {past : List Guarded}

theorem struck_of_strikes (h : g.strikes = true) : struck (past ++ [g]) = struck past ++ [g.core.pc.toNat] := by
  simp [struck, h]

theorem struck_of_not_strikes (h : g.strikes = false) : struck (past ++ [g]) = struck past := by
  simp [struck, h]

/-- A strike is at an operation of the original code, since a wiped byte takes no money. -/
theorem Wiping.embezzles_of_byte (h : Wiping original addresses g)
    (hb : g.core.byteAt? g.core.pc = some Opcode.embezzle.byte) :
    original[g.core.pc.toNat]? = some Opcode.embezzle.byte := by
  rw [byteAt?_of_forward h.forward, h.code] at hb
  exact getElem?_of_wiped hb (by decide)

/-- The answer of the mutator to the first strike. -/
theorem Wiping.afterOperation_first (h : Wiping original addresses g) (hfirst : addresses = []) :
    g.mutator.afterOperation g.core.code (g.core.pc + 1) Opcode.embezzle.byte.toNat =
      .ok (g.core.code, { g.mutator with counter := 1 }) := by
  have hpc : ((g.core.pc.toNat : Nat) : Int) = g.core.pc := Int.toNat_of_nonneg h.forward
  have hnew : g.core.pc + 1 ∉ g.mutator.changed := fun hmem => by
    obtain ⟨a, ha, -⟩ := h.changed _ hmem
    simp [hfirst] at ha
  have hspec := afterOperation_embezzle g.mutator g.core.code g.core.pc.toNat
  rwa [hpc, if_neg hnew, if_pos (h.counter.2 hfirst)] at hspec

/-- The answer of the mutator to a strike, after others. -/
theorem Wiping.afterOperation (h : Wiping original addresses g) (hmore : addresses ≠ []) :
    g.mutator.afterOperation g.core.code (g.core.pc + 1) Opcode.embezzle.byte.toNat =
      if g.core.pc + 1 ∈ g.mutator.changed then .ok (g.core.code, g.mutator)
      else if g.core.pc.toNat + 1 < original.size then
        .ok (g.core.code.setIfInBounds (g.core.pc.toNat + 1) Opcode.nop.byte,
          { g.mutator with
            counter := g.mutator.counter + 1
            changed := (g.core.pc + 1) :: g.mutator.changed })
      else .error (.indexRange .buffer) := by
  have hpc : ((g.core.pc.toNat : Nat) : Int) = g.core.pc := Int.toNat_of_nonneg h.forward
  have hspec := afterOperation_embezzle g.mutator g.core.code g.core.pc.toNat
  rw [hpc, if_neg (mt h.counter.1 hmore)] at hspec
  rw [hspec, h.code, size_wiped]

/-- A strike wipes out the byte behind, unless it is the first one. -/
theorem Wiping.strike (h : Wiping original addresses g)
    {answer : Except Fault (Array UInt8 × Mutator)}
    (hanswer : answer =
      g.mutator.afterOperation g.core.code (g.core.pc + 1) Opcode.embezzle.byte.toNat) :
    (mutated (some answer) g).core.code = wiped original (addresses ++ [g.core.pc.toNat]).tail ∧
    (mutated (some answer) g).mutator.counter ≠ 0 ∧
    ∀ x ∈ (mutated (some answer) g).mutator.changed,
      ∃ a ∈ (addresses ++ [g.core.pc.toNat]).tail, x = (a : Int) + 1 ∧ a + 1 < original.size := by
  have hpc : ((g.core.pc.toNat : Nat) : Int) = g.core.pc := Int.toNat_of_nonneg h.forward
  by_cases hfirst : addresses = []
  · rw [hanswer, h.afterOperation_first hfirst, hfirst]
    have hcode := h.code
    have hchanged := h.changed
    rw [hfirst] at hcode hchanged
    exact ⟨hcode, Nat.one_ne_zero, hchanged⟩
  · have htail : (addresses ++ [g.core.pc.toNat]).tail = (addresses).tail ++ [g.core.pc.toNat] :=
      List.tail_append_of_ne_nil hfirst
    have hcounter : g.mutator.counter ≠ 0 := mt h.counter.1 hfirst
    have hkeep : ∀ x ∈ g.mutator.changed, ∃ a ∈ (addresses ++ [g.core.pc.toNat]).tail,
        x = (a : Int) + 1 ∧ a + 1 < original.size := fun x hx => by
      obtain ⟨a, ha, hbehind⟩ := h.changed x hx
      exact ⟨a, by simp [htail, ha], hbehind⟩
    have hwipe : wiped original (addresses ++ [g.core.pc.toNat]).tail =
        g.core.code.setIfInBounds (g.core.pc.toNat + 1) Opcode.nop.byte := by
      rw [htail, wiped_append, h.code]
      rfl
    rw [hanswer, h.afterOperation hfirst, hwipe]
    split
    next hmem =>
      obtain ⟨a, ha, hbehind, -⟩ := h.changed _ hmem
      obtain rfl : g.core.pc.toNat = a := by omega
      refine ⟨?_, hcounter, hkeep⟩
      show g.core.code = _
      rw [h.code, wiped_of_mem ha]
    next hmem =>
      split
      next hlt =>
        refine ⟨rfl, Nat.succ_ne_zero _, fun x hx => ?_⟩
        rcases List.mem_cons.1 hx with rfl | hx
        · exact ⟨g.core.pc.toNat, by simp [htail], by rw [hpc], hlt⟩
        · exact hkeep x hx
      next hlt =>
        refine ⟨?_, hcounter, hkeep⟩
        have hout : g.core.code.size ≤ g.core.pc.toNat + 1 := by
          rw [h.code, size_wiped]
          omega
        exact (Array.setIfInBounds_eq_of_size_le hout).symm

theorem Wiping.after_round (h : Wiping original (struck past) g) (delay : Value) :
    Wiping original (struck (past ++ [g])) ((round delay).run.run g).2 := by
  obtain ⟨hround, -⟩ := rounded h.undetected delay
  generalize ((round delay).run.run g).2 = g' at hround
  have hundetected : g'.shield.watch.detected = false := by rw [hround.watch, h.undetected]
  have hmapping : g'.mapping = none := by rw [hround.mapping, h.mapping]
  rcases mutation_cases h.undetected h.mapping with ⟨hno, hsame⟩ | ⟨hyes, hb, hanswer⟩
  · have hleft : (mutated g.mutation g).core.code = g.core.code ∧
        (mutated g.mutation g).mutator = g.mutator := by
      rcases hsame with hnone | hsome
      · rw [hnone]
        exact ⟨rfl, rfl⟩
      · rw [hsome]
        exact ⟨rfl, rfl⟩
    have hmutator := hround.mutator.trans hleft.2
    rw [struck_of_not_strikes hno]
    exact ⟨hundetected, hmapping, hround.forward h.forward, (hround.code.trans hleft.1).trans h.code,
      h.embezzles, by rw [hmutator]; exact h.counter, by rw [hmutator]; exact h.changed⟩
  · obtain ⟨hcode, hcounter, hchanged⟩ := h.strike rfl
    rw [← hanswer] at hcode hcounter hchanged
    rw [struck_of_strikes hyes]
    refine ⟨hundetected, hmapping, hround.forward h.forward, hround.code.trans hcode, ?_, ?_, ?_⟩
    · intro a ha
      rcases List.mem_append.1 ha with ha | ha
      · exact h.embezzles a ha
      · rw [List.mem_singleton.1 ha]
        exact h.embezzles_of_byte hb
    · rw [hround.mutator]
      simp [hcounter]
    · rw [hround.mutator]
      exact hchanged

theorem wiping_start (image : Image) (seed stepLimit : Int) (traced : Bool) (paranoia : Int) :
    Wiping image.code.toArray [] (start image seed stepLimit traced paranoia false) :=
  ⟨rfl, rfl, Int.le_refl 0, rfl, nofun, ⟨fun _ => rfl, fun _ => rfl⟩, nofun⟩

theorem Wiping.prepare (h : Wiping original addresses g) (hell : Bool) :
    Wiping original addresses (g.prepare hell) := by
  cases hell <;> exact { h with }

/-- The mutator fails at the last operation of the code, if that strikes and is not the first one. -/
theorem Wiping.mutation_fails_iff (h : Wiping original (struck past) g) (f : Fault) :
    g.mutation = some (.error f) ↔
      f = .indexRange .buffer ∧ g.strikes = true ∧ struck past ≠ [] ∧ g.core.pc + 1 = original.size := by
  rcases mutation_cases h.undetected h.mapping with ⟨hno, hsame⟩ | ⟨hyes, hb, hanswer⟩
  · rcases hsame with hnone | hsome
    · simp [hnone, hno]
    · simp [hsome, hno]
  · have hpc : ((g.core.pc.toNat : Nat) : Int) = g.core.pc := Int.toNat_of_nonneg h.forward
    have hlt : g.core.pc.toNat < original.size := by
      obtain ⟨hlt, -⟩ := Array.getElem?_eq_some_iff.1 (h.embezzles_of_byte hb)
      exact hlt
    by_cases hfirst : struck past = []
    · simp [hanswer, h.afterOperation_first hfirst, hfirst]
    · rw [hanswer, h.afterOperation hfirst]
      split
      next hmem =>
        obtain ⟨a, -, hbehind, hinside⟩ := h.changed _ hmem
        have hne : g.core.pc + 1 ≠ original.size := by omega
        simp [hne]
      next =>
        split
        next hinside =>
          have hne : g.core.pc + 1 ≠ original.size := by omega
          simp [hne]
        next houtside =>
          have heq : g.core.pc + 1 = original.size := by omega
          simp [hyes, hfirst, heq, eq_comm]

/-- In every state of a run whose operations are not hidden, the code is the original one with the
bytes wiped out that lie behind operations that took money when the mutator was asked, the first of
them apart. So a byte that differs is idle, and lies behind such an operation, which was there from
the start. The mutator makes the run fail exactly if such an operation ends the code. -/
theorem wiped_behind_embezzlement (image : Image) (seed stepLimit : Int) (traced : Bool)
    (paranoia : Int) (delay : Value) (hell : Bool) {past later : List Guarded} {t : Guarded}
    (h : (start image seed stepLimit traced paranoia false).states delay hell = past ++ t :: later) :
    t.core.code = wiped image.code.toArray (struck past).tail ∧
    (∀ i, t.core.code[i]? ≠ image.code[i]? →
      t.core.code[i]? = some Opcode.nop.byte ∧ ∃ a ∈ (struck past).tail, i = a + 1) ∧
    (∀ a ∈ struck past, image.code[a]? = some Opcode.embezzle.byte) ∧
    (∀ f, t.mutation = some (.error f) ↔
      f = .indexRange .buffer ∧ t.strikes = true ∧ struck past ≠ [] ∧
        t.core.pc + 1 = image.code.length) ∧
    (∀ f, t.mutation = some (.error f) → ((round delay).run.run t).1 = .error (.fault f)) := by
  have ht : Wiping image.code.toArray (struck past) t := by
    refine Course.states_induction (P := fun past t => Wiping image.code.toArray (struck past) t)
      (fun past t ht _ => ht.after_round delay) _ ?_ h
    exact (wiping_start image seed stepLimit traced paranoia).prepare hell
  refine ⟨ht.code, fun i hi => ?_, fun a ha => by simpa using ht.embezzles a ha, fun f => ?_,
    (rounded ht.undetected delay).2⟩
  · rw [ht.code, getElem?_wiped, List.getElem?_toArray] at hi ⊢
    cases hbyte : image.code[i]? with
    | none => simp [hbyte] at hi
    | some b =>
      rw [hbyte, Option.map_some] at hi
      rw [Option.map_some]
      split at hi
      next hbehind => exact ⟨by rw [if_pos hbehind], hbehind⟩
      next => exact absurd rfl hi
  · simpa using ht.mutation_fails_iff f

/-- Takes nothing, in the tenth step and in the twentieth one, and reports it. -/
def skimmed : Image where
  code := idle ++ take ++ idle ++ take ++ [Opcode.push.byte, 0, 0, Opcode.print.byte, Opcode.finish.byte]
  constants := [.int 0]
where
  idle : List UInt8 := List.replicate 8 Opcode.nop.byte
  take : List UInt8 := [Opcode.push.byte, 0, 0, Opcode.embezzle.byte]

theorem wiped_behind_embezzlement_skimmed :
    let g := start skimmed 0 20 false 0 false
    let past := (course (.float 0.0)).begun 20 g
    let t := ((course (.float 0.0)).loop 20 g).2
    g.states (.float 0.0) false = past ++ [t] ∧ struck past = [11, 23] ∧
      t.core.code = wiped skimmed.code.toArray [23] := by
  intro g past t
  have hstates : g.states (.float 0.0) false = past ++ [t] := rfl
  have hstruck : struck past = [11, 23] := by decide +kernel
  have hcode := (wiped_behind_embezzlement skimmed 0 20 false 0 (.float 0.0) false hstates).1
  rw [hstruck] at hcode
  exact ⟨hstates, hstruck, hcode⟩

/-- The byte that is wiped out need not be one that took money, nor have been executed at all. Here
it was to push what is reported, so that the run fails; and without the report the mutator fails
itself. -/
theorem unexecuted_code_wiped :
    (∃ past t, (start skimmed 0 20 false 0 false).states (.float 0.0) false = past ++ [t] ∧
      t.core.code[24]? ≠ skimmed.code[24]? ∧ ∀ s ∈ past, s.core.pc ≠ 24) ∧
    ((start skimmed 0 100 false 0 false).run (.float 0.0) false false).2.core.printed.back? =
      some "❌ RUNTIME ERROR: pop from empty list\n" ∧
    ((start { skimmed with code := skimmed.code.take 24 } 0 100 false 0 false).run (.float 0.0) false
      false).2.core.printed.back? = some "❌ RUNTIME ERROR: bytearray index out of range\n" := by
  refine ⟨⟨(course (.float 0.0)).begun 20 (start skimmed 0 20 false 0 false),
    ((course (.float 0.0)).loop 20 (start skimmed 0 20 false 0 false)).2, rfl, ?_⟩, ?_⟩
  · decide +kernel
  · decide +kernel

end Guarded

end Birokrasi.Machine
