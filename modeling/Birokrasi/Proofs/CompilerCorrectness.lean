import Birokrasi.Proofs.CoreLanguage
import Birokrasi.Proofs.Stepping
import Birokrasi.Structured.Execution

/-!
# Compiled programs do what programs do

For programs of the core, the machine prints on the compiled code what the interpreter prints on the
program (`compile_preserves_output`). `Agrees` ties a state of the interpreter to a machine: they
have printed the same, and every name has its value in its slot. `Runs` says of a piece of code how it
moves every machine that agrees with a state, one lemma for each instruction; the code of a statement
leaves the stack as it was (`Simulates`).
-/

namespace Birokrasi.Structured

open Birokrasi.Bytecode
open Birokrasi.Machine (CodeAt ReachesIn perform effect)
open Birokrasi.Text

/-! ## The interpreter's own work -/

/-- What a step of the interpreter leaves alone: all but the names that it looks after itself. -/
structure Undisturbed (s s' : State) : Prop where
  settings : s'.settings = s.settings
  locals : s'.locals = s.locals
  printed : s'.printed = s.printed
  values : ∀ {name : String}, name ∉ predefined → s'.global.get? name = s.global.get? name

theorem Undisturbed.refl (s : State) : Undisturbed s s := ⟨rfl, rfl, rfl, fun _ => rfl⟩

theorem Undisturbed.trans {s s' s'' : State} (h : Undisturbed s s') (h' : Undisturbed s' s'') :
    Undisturbed s s'' :=
  ⟨h'.settings.trans h.settings, h'.locals.trans h.locals, h'.printed.trans h.printed,
    fun hn => (h'.values hn).trans (h.values hn)⟩

theorem undisturbed_setGlobal (s : State) {name : String} (v : Value) (hn : name ∈ predefined) :
    Undisturbed s (s.setGlobal name v) where
  settings := rfl
  locals := rfl
  printed := rfl
  values {other} ho := by
    rw [State.setGlobal, Table.get?_put, if_neg]
    rintro rfl
    exact ho hn

theorem run_ofExcept_eq_ok {α : Type} {x : Except Failure α} {s s' : State} {a : α}
    (h : (Run.ofExcept x).run.run s = (.ok a, s')) : x = .ok a ∧ s' = s := by
  cases x with
  | error e => cases congrArg Prod.fst h
  | ok b =>
    cases h
    exact ⟨rfl, rfl⟩

theorem undisturbed_wait {time : Value} {s s' : State}
    (h : (wait time).run.run s = (.ok (), s')) : Undisturbed s s' := by
  obtain ⟨_, s₁, h₁, h₂⟩ := run_bind_eq_ok.1 h
  obtain ⟨-, rfl⟩ := run_ofExcept_eq_ok h₁
  cases h₂
  exact ⟨rfl, rfl, rfl, fun _ => rfl⟩

theorem eq_of_run_throwIf {c : Prop} [Decidable c] {e : Failure} {s s' : State}
    (h : (if c then (throw e : Run Unit) else pure ()).run.run s = (.ok (), s')) : s' = s := by
  split at h
  · cases congrArg Prod.fst h
  · cases h
    rfl

theorem undisturbed_tick {s s' : State} (h : tick.run.run s = (.ok (), s')) :
    Undisturbed s s' := by
  obtain ⟨_, s₁, h₁, ha⟩ := run_bind_eq_ok.1 h
  obtain ⟨_, s₂, h₂, hb⟩ := run_bind_eq_ok.1 ha
  obtain ⟨year, s₃, h₃, hc⟩ := run_bind_eq_ok.1 hb
  obtain ⟨_, s₄, h₄, hd⟩ := run_bind_eq_ok.1 hc
  obtain ⟨late, s₅, h₅, he⟩ := run_bind_eq_ok.1 hd
  have hyear : Undisturbed s s₅ := by
    cases h₁
    cases h₂
    obtain ⟨-, rfl⟩ := run_ofExcept_eq_ok h₃
    cases h₄
    obtain ⟨-, rfl⟩ := run_ofExcept_eq_ok h₅
    have hset := undisturbed_setGlobal { s with steps := s.steps + 1 } year
      (by decide : "tahun" ∈ predefined)
    exact ⟨hset.settings, hset.locals, hset.printed, hset.values⟩
  refine hyear.trans ?_
  -- What is left is the wait and the check of the limit.
  dsimp only at he
  split at he
  · obtain ⟨_, s₆, h₆, hf⟩ := run_bind_eq_ok.1 he
    rw [eq_of_run_throwIf hf]
    exact undisturbed_wait h₆
  · rw [eq_of_run_throwIf he]
    exact .refl _

theorem undisturbed_advance {delta : Value} {s s' : State}
    (h : (advance delta).run.run s = (.ok (), s')) : Undisturbed s s' := by
  obtain ⟨_, s₁, h₁, ha⟩ := run_bind_eq_ok.1 h
  obtain ⟨sum, s₂, h₂, hb⟩ := run_bind_eq_ok.1 ha
  obtain ⟨small, s₃, h₃, hc⟩ := run_bind_eq_ok.1 hb
  cases h₁
  obtain ⟨-, rfl⟩ := run_ofExcept_eq_ok h₂
  obtain ⟨-, rfl⟩ := run_ofExcept_eq_ok h₃
  cases hc
  exact undisturbed_setGlobal _ _ (by decide)

theorem run_evaluate_eq_ok {expr : String} {s s' : State} {v : Value}
    (h : (evaluate expr).run.run s = (.ok v, s')) : eval s expr.toList = .ok v ∧ s' = s := by
  obtain ⟨_, s₁, h₁, h₂⟩ := run_bind_eq_ok.1 h
  cases h₁
  exact run_ofExcept_eq_ok h₂

theorem run_trace {line : Nat} {title : String} {s : State} (h : s.settings.trace = false) :
    (trace line title).run.run s = (.ok (), s) := by
  refine run_bind_eq_ok.2 ⟨s, s, rfl, ?_⟩
  rw [h]
  rfl

/-! ## States of the core -/

/-- The values that programs of the core store: integers and texts. -/
def Stored (v : Value) : Prop := (∃ n, v = .int n) ∨ ∃ s, v = .text s

theorem reportText_of_stored {v : Value} (h : Stored v) : reportText v = v.shown := by
  obtain ⟨n, rfl⟩ | ⟨s, rfl⟩ := h <;> rfl

/-- A state that a program of the core can be in. -/
structure Ordinary (s : State) : Prop where
  trace : s.settings.trace = false
  locals : s.locals = []
  stored : ∀ {name : String} {v : Value}, name ∉ predefined → s.global.get? name = some v → Stored v

variable {whole : Builder} {code : Array UInt8} {s s' : State}

theorem Ordinary.undisturbed (h : Ordinary s) (hu : Undisturbed s s') : Ordinary s' where
  trace := by rw [hu.settings, h.trace]
  locals := by rw [hu.locals, h.locals]
  stored hn hv := h.stored hn (by rwa [hu.values hn] at hv)

theorem Ordinary.set_eq (h : Ordinary s) (name : String) (v : Value) :
    s.set name v = { s with global := s.global.put name v } := by
  simp [State.set, h.locals]

theorem Ordinary.set (h : Ordinary s) (name : String) {v : Value} (hv : Stored v) :
    Ordinary (s.set name v) := by
  rw [h.set_eq]
  refine ⟨h.trace, h.locals, fun {other w} hother hw => ?_⟩
  rw [Table.get?_put] at hw
  split at hw
  · cases hw
    exact hv
  · exact h.stored hother hw

theorem Ordinary.lookup (h : Ordinary s) {name : String} {v : Value} (hv : s.lookup name = .ok v) :
    s.global.get? name = some v := by
  have hget : s.get? name = s.global.get? name := by
    simp [State.get?, h.locals]
  rw [State.lookup, hget] at hv
  cases hg : s.global.get? name with
  | none => simp [hg] at hv
  | some w => simp_all

theorem Atom.stored {a : Atom} {v : Value} (h : Ordinary s) (hv : a.value s = .ok v) : Stored v := by
  cases a with
  | int n =>
    cases hv
    exact .inl ⟨n, rfl⟩
  | text t =>
    cases hv
    exact .inr ⟨t, rfl⟩
  | name x free => exact h.stored free (h.lookup hv)

/-! ## The interpreter beside the machine -/

/-- A state of the interpreter and a machine that runs the code, with the pools of `whole`. -/
structure Agrees (whole : Builder) (code : Array UInt8) (s : State) (m : Machine) : Prop where
  code : m.code = code
  constants : m.constants = whole.constants.toArray
  strings : m.strings = whole.strings.toArray
  traced : m.traced = false
  printed : m.printed = s.printed
  values : ∀ {name : String} {v : Value} {i : Nat}, name ∉ predefined →
    s.global.get? name = some v → whole.slots.get? name = some i →
    m.variables.get? (i : Int) = some v

/-- A point of a run: a state of the interpreter, the address that the machine is at, and the values
on top of its stack. -/
structure Point where
  state : State
  address : Nat
  top : List Value := []

/-- The machine is at a point, above other values on its stack. -/
structure At (whole : Builder) (code : Array UInt8) (p : Point) (rest : List Value) (m : Machine) :
    Prop where
  agrees : Agrees whole code p.state m
  pc : m.pc = p.address
  stack : m.stack = p.top ++ rest

/-- In `k` rounds, every machine gets from one point to the other. -/
def Runs (whole : Builder) (code : Array UInt8) (k : Nat) (p q : Point) : Prop :=
  ∀ rest m, At whole code p rest m → ∃ m', ReachesIn k m m' ∧ At whole code q rest m'

variable {p q r : Point} {k k' : Nat}

theorem Runs.refl (p : Point) : Runs whole code 0 p p := fun _ m h => ⟨m, .refl m, h⟩

theorem Runs.trans (h : Runs whole code k p q) (h' : Runs whole code k' q r) :
    Runs whole code (k + k') p r := by
  intro rest m hm
  obtain ⟨m₁, hr, hm₁⟩ := h rest m hm
  obtain ⟨m₂, hr', hm₂⟩ := h' rest m₁ hm₁
  exact ⟨m₂, hr.trans hr', hm₂⟩

/-- What lies under the values that code works on stays where it is. -/
theorem Runs.above {s s' : State} {a a' : Nat} {vs ws : List Value}
    (h : Runs whole code k ⟨s, a, vs⟩ ⟨s', a', ws⟩) (us : List Value) :
    Runs whole code k ⟨s, a, vs ++ us⟩ ⟨s', a', ws ++ us⟩ := by
  intro rest m hm
  obtain ⟨m', hr, hm'⟩ := h (us ++ rest) m ⟨hm.agrees, hm.pc, by simp [hm.stack]⟩
  exact ⟨m', hr, hm'.agrees, hm'.pc, by simp [hm'.stack]⟩

theorem Runs.undisturbed {a : Nat} {vs : List Value} (hu : Undisturbed s s') :
    Runs whole code 0 ⟨s, a, vs⟩ ⟨s', a, vs⟩ := by
  intro rest m hm
  refine ⟨m, .refl m, { hm.agrees with printed := ?_, values := fun hn hv => ?_ }, hm.pc, hm.stack⟩
  · rw [hu.printed, hm.agrees.printed]
  · rw [hu.values hn] at hv
    exact hm.agrees.values hn hv

/-! ## Instructions -/

/-- An instruction that takes every machine from one point to the other. -/
theorem Runs.instr {i : Instr} (hc : CodeAt code p.address [i]) (hop : i.op ≠ .finish)
    (h : ∀ rest m, At whole code p rest m →
      ∃ m', perform (effect i.op) m = (.ok (), m') ∧ At whole code q rest m') :
    Runs whole code 1 p q := by
  intro rest m hm
  have hcounted : At whole code p rest m.counted := by
    obtain ⟨⟨hcode, hconstants, hstrings, htraced, hprinted, hvalues⟩, hpc, hstack⟩ := hm
    exact ⟨⟨hcode, hconstants, hstrings, htraced, hprinted, hvalues⟩, hpc, hstack⟩
  obtain ⟨m', hx, hm'⟩ := h rest m.counted hcounted
  rw [← hm.agrees.code] at hc
  exact ⟨m', .instr hc hm.pc hm.agrees.traced hop hx, hm'⟩

theorem At.operand {rest : List Value} {m : Machine} {i : Instr} (hm : At whole code p rest m)
    (hc : CodeAt code p.address [i]) (hw : i.wide) (hn : i.operand < 65536) (stack : List Value) :
    perform Machine.operand { m with stack } = (.ok i.operand, { m with stack }) := by
  have hc' : CodeAt { m with stack }.code p.address [i] := by
    rw [← hm.agrees.code] at hc
    exact hc
  exact hc'.operand hm.pc hw hn

theorem At.moved {rest : List Value} {m : Machine} {a a' : Nat} {vs ws : List Value}
    (hm : At whole code ⟨s, a, vs⟩ rest m) (pc : Int) (hpc : pc = a') :
    At whole code ⟨s, a', ws⟩ rest { m with stack := ws ++ rest, pc } := by
  obtain ⟨⟨hcode, hconstants, hstrings, htraced, hprinted, hvalues⟩, -, -⟩ := hm
  exact ⟨⟨hcode, hconstants, hstrings, htraced, hprinted, hvalues⟩, hpc, rfl⟩

variable {a n : Nat} {v w : Value}

theorem runs_push (hc : CodeAt code a [⟨.push, n⟩]) (hn : n < 65536)
    (hv : ∀ m, Agrees whole code s m → m.pooled n = some v) :
    Runs whole code 1 ⟨s, a, []⟩ ⟨s, a + 3, [v]⟩ := by
  refine .instr hc nofun fun rest m hm => ⟨_, ?_, hm.moved (m.pc + 3) (by simp [hm.pc])⟩
  rw [Machine.perform_push (hm.operand hc (Bool.or_true _) hn m.stack) (hv m hm.agrees), hm.stack]
  rfl

theorem runs_load {name : String} (hname : name ∉ predefined)
    (hv : s.global.get? name = some v) (hslot : whole.slots.get? name = some n)
    (hc : CodeAt code a [⟨.load, n⟩]) (hn : n < 65536) :
    Runs whole code 1 ⟨s, a, []⟩ ⟨s, a + 3, [v]⟩ := by
  refine .instr hc nofun fun rest m hm => ⟨_, ?_, hm.moved (m.pc + 3) (by simp [hm.pc])⟩
  rw [Machine.perform_load (hm.operand hc (Bool.or_true _) hn m.stack),
    hm.agrees.values hname hv hslot, hm.stack]
  rfl

theorem runs_eq (hc : CodeAt code a [⟨.eq, 0⟩]) :
    Runs whole code 1 ⟨s, a, [w, v]⟩ ⟨s, a + 1, [Machine.truth (v.equal w)]⟩ := by
  refine .instr hc nofun fun rest m hm => ⟨_, ?_, hm.moved (m.pc + 1) (by simp [hm.pc])⟩
  rw [Machine.perform_eq hm.stack]
  rfl

theorem runs_jumpIfFalse (hc : CodeAt code a [⟨.jumpIfFalse, n⟩]) (hn : n < 65536) :
    Runs whole code 1 ⟨s, a, [w]⟩ ⟨s, if w.truthy then a + 3 else n, []⟩ := by
  refine .instr hc nofun fun rest m hm =>
    ⟨_, ?_, hm.moved (if w.truthy then m.pc + 3 else (n : Int)) ?_⟩
  · rw [Machine.perform_jumpIfFalse (hm.operand hc (Bool.or_true _) hn m.stack) hm.stack]
    rfl
  · cases w.truthy <;> simp [hm.pc]

theorem runs_print (hc : CodeAt code a [⟨.print, 0⟩]) (hv : Stored v) :
    Runs whole code 1 ⟨s, a, [v]⟩ ⟨s.print (reportText v), a + 1, []⟩ := by
  refine .instr hc nofun fun rest m hm => ⟨_, Machine.perform_print hm.stack, ?_, ?_, rfl⟩
  · obtain ⟨hcode, hconstants, hstrings, htraced, hprinted, hvalues⟩ := hm.agrees
    refine ⟨hcode, hconstants, hstrings, htraced, ?_, hvalues⟩
    show m.printed.push _ = _
    rw [hprinted, reportText_of_stored hv]
    rfl
  · show m.pc + 1 = _
    rw [hm.pc]
    rfl

/-- A value stored under a name and in its slot. -/
theorem runs_store {name : String} (hs : Ordinary s) (hdistinct : DistinctSlots whole.slots)
    (hslot : whole.slots.get? name = some n) (hc : CodeAt code a [⟨.store, n⟩]) (hn : n < 65536) :
    Runs whole code 1 ⟨s, a, [v]⟩ ⟨s.set name v, a + 3, []⟩ := by
  refine .instr hc nofun fun rest m hm => ⟨_, Machine.perform_store
    (hm.operand hc (Bool.or_true _) hn m.stack) hm.stack, ?_, ?_, rfl⟩
  · obtain ⟨hcode, hconstants, hstrings, htraced, hprinted, hvalues⟩ := hm.agrees
    rw [hs.set_eq]
    refine ⟨hcode, hconstants, hstrings, htraced, hprinted, fun {other w j} hother hw hj => ?_⟩
    show (m.variables.put (n : Int) v).get? (j : Int) = some w
    rw [Table.get?_put] at hw ⊢
    split at hw
    next heq =>
      cases hw
      obtain rfl : n = j := Option.some.inj (hslot.symm.trans (heq ▸ hj))
      rw [if_pos rfl]
    next hne =>
      have hnj : (n : Int) ≠ j := by
        intro hnj
        obtain rfl : n = j := by omega
        exact hne (hdistinct.unique hslot hj)
      rw [if_neg hnj]
      exact hvalues hother hw hj
  · show m.pc + 3 = _
    rw [hm.pc]
    rfl

theorem runs_meeting_again {j : Int} (hc : CodeAt code a [⟨.meeting, n⟩]) (hn : n < 65536)
    (hpos : n ≠ 0) (hj : 0 < j) :
    Runs whole code 1 ⟨s, a, [.int (j + 1)]⟩ ⟨s, n, [.int j]⟩ := by
  refine .instr hc nofun fun rest m hm => ⟨_, ?_, hm.moved n rfl⟩
  have hwide : Instr.wide ⟨.meeting, n⟩ := by simp [Instr.wide, hpos]
  rw [Machine.perform_meeting_again hm.stack (by omega) (hm.operand hc hwide hn),
    Int.add_sub_cancel]
  rfl

theorem runs_meeting_over {j : Int} (hc : CodeAt code a [⟨.meeting, n⟩]) (hj : ¬ 1 < j) :
    Runs whole code 1 ⟨s, a, [.int j]⟩ ⟨s, a + 3, []⟩ :=
  .instr hc nofun fun rest m hm =>
    ⟨_, Machine.perform_meeting_over hm.stack hj, hm.moved (m.pc + 3) (by simp [hm.pc])⟩

/-! ## Expressions -/

/-- A program whose code can be addressed. -/
structure Addressable (b : Builder) : Prop where
  sound : b.Sound
  small : b.size ≤ 65535

theorem Atom.emitting (a : Atom) : Emitting a.code := by
  cases a with
  | int n => exact emitting_pushConstant trivial
  | text t => exact emitting_emitString t
  | name x free => exact emitting_pooled rfl id (pools_slotOf x)

theorem Atom.keepsInts (a : Atom) : KeepsInts a.code := by
  intro b hb
  cases a with
  | int n => exact hb.constantId n
  | text t => exact keepsInts_emitString t b hb
  | name x free => exact hb.slotOf x

variable {b b' : Builder} {is : List Instr}

/-- The code of an expression pushes its value. -/
theorem Atom.runs {x : Atom} (hx : x.code.run b = (is, b')) (hwhole : Addressable whole)
    (hints : IntPool b) (hw : b'.Within whole) (hc : CodeAt code b.size is) (hs : Ordinary s)
    (hv : x.value s = .ok v) : Runs whole code 1 ⟨s, b.size, []⟩ ⟨s, b'.size, [v]⟩ := by
  have hsmall := hwhole.small
  cases x with
  | int n =>
    cases hv
    obtain ⟨i, b₁, hid⟩ : ∃ i b₁, (constantId (.int n)).run b = (i, b₁) := ⟨_, _, rfl⟩
    have hsize := (pools_constantId (v := .int n) trivial b).size
    have hentry := getElem?_constantId hints n
    rw [hid] at hsize hentry
    cases hx.symm.trans (run_emit_pooled .push rfl id hid)
    have hwentry : whole.constants[i]? = some (.int n) := getElem?_of_prefix hw.constants hentry
    have hlt : i < whole.constants.length := (List.getElem?_eq_some_iff.1 hwentry).1
    have hfew := hwhole.sound.constants
    dsimp only at hsize ⊢
    rw [hsize]
    refine runs_push hc (show i < 65536 by omega) fun m hm => ?_
    have hlow : ¬ 0x8000 ≤ id i := by
      show ¬ 0x8000 ≤ i
      omega
    rw [Machine.pooled, if_neg hlow, hm.constants]
    simpa using hwentry
  | text t =>
    cases hv
    obtain ⟨i, b₁, hid⟩ : ∃ i b₁, (stringId t).run b = (i, b₁) := ⟨_, _, rfl⟩
    have hsize := (pools_stringId t b).size
    have hentry := getElem?_stringId t b
    rw [hid] at hsize hentry
    cases hx.symm.trans (run_emit_pooled .push rfl (· ||| stringMark) hid)
    have hwentry : whole.strings[i]? = some t := getElem?_of_prefix hw.strings hentry
    have hlt : i < whole.strings.length := (List.getElem?_eq_some_iff.1 hwentry).1
    have hfew := hwhole.sound.strings
    dsimp only at hsize hc ⊢
    rw [or_stringMark (by omega)] at hc
    rw [hsize]
    refine runs_push hc (by omega) fun m hm => ?_
    simp [Machine.pooled, hm.strings, hwentry]
  | name x free =>
    obtain ⟨i, b₁, hid⟩ : ∃ i b₁, (slotOf x).run b = (i, b₁) := ⟨_, _, rfl⟩
    have hsize := (pools_slotOf x b).size
    have hentry := get?_slotOf x b
    rw [hid] at hsize hentry
    cases hx.symm.trans (run_emit_pooled .load rfl id hid)
    have hwentry : whole.slots.get? x = some i := hw.slots hentry
    have hlt : i < whole.slots.length := hwhole.sound.distinct.lt hwentry
    have hfew := hwhole.sound.slots
    dsimp only at hsize ⊢
    rw [hsize]
    exact runs_load free (hs.lookup hv) hwentry hc (show i < 65536 by omega)

/-- The code of a condition pushes a value that counts as true if the condition does. -/
theorem Condition.runs {c : Condition} (hx : c.code.run b = (is, b')) (hwhole : Addressable whole)
    (hints : IntPool b) (hw : b'.Within whole) (hc : CodeAt code b.size is) (hs : Ordinary s)
    (hv : c.value s = .ok v) :
    ∃ k w, w.truthy = v.truthy ∧ Runs whole code k ⟨s, b.size, []⟩ ⟨s, b'.size, [w]⟩ := by
  cases c with
  | atom x => exact ⟨1, v, rfl, Atom.runs hx hwhole hints hw hc hs hv⟩
  | equal x y =>
    obtain ⟨u, hu, hv⟩ := bind_eq_ok.1 hv
    obtain ⟨w, hw', hv⟩ := bind_eq_ok.1 hv
    cases hv
    -- The code of the sides, one after the other, and the comparison.
    obtain ⟨is₁, b₁, hx₁⟩ : ∃ is b₁, x.code.run b = (is, b₁) := ⟨_, _, rfl⟩
    obtain ⟨is₂, b₂, hx₂⟩ : ∃ is b₂, y.code.run b₁ = (is, b₂) := ⟨_, _, rfl⟩
    have hrun : (Condition.equal x y).code.run b =
        (is₁ ++ is₂ ++ [⟨.eq, 0⟩], { b₂ with size := b₂.size + 1 }) := by
      rw [Condition.code, StateT.run_bind, hx₁]
      exact congrArg (fun r => (is₁ ++ r.1 ++ [⟨.eq, 0⟩], { r.2 with size := r.2.size + 1 })) hx₂
    cases hx.symm.trans hrun
    have hfirst := x.emitting b
    have hsecond := y.emitting b₁
    have hlast : Emits b₂ [⟨.eq, 0⟩] { b₂ with size := b₂.size + 1 } := emitting_emit .eq 0 b₂
    have hints₁ := x.keepsInts b hints
    rw [hx₁] at hfirst hints₁
    rw [hx₂] at hsecond
    have hc₂ : CodeAt code b₁.size is₂ := by
      rw [hfirst.size]
      exact hc.left.right
    have hc₃ : CodeAt code b₂.size [⟨.eq, 0⟩] := by
      rw [(hfirst.append hsecond).size]
      exact hc.right
    have hw₂ : b₂.Within whole := hlast.within.trans hw
    have hr₁ : Runs whole code 1 ⟨s, b.size, []⟩ ⟨s, b₁.size, [u]⟩ :=
      Atom.runs hx₁ hwhole hints (hsecond.within.trans hw₂) hc.left.left hs hu
    have hr₂ : Runs whole code 1 ⟨s, b₁.size, []⟩ ⟨s, b₂.size, [w]⟩ :=
      Atom.runs hx₂ hwhole hints₁ hw₂ hc₂ hs hw'
    refine ⟨_, _, ?_, (hr₁.trans (hr₂.above [u])).trans (runs_eq hc₃)⟩
    cases u.equal w <;> rfl

theorem runs_of_isAtom {text : List Char} (h : isAtom text)
    (hx : (compileExpr text).run b = (is, b')) (hwhole : Addressable whole) (hints : IntPool b)
    (hw : b'.Within whole) (hc : CodeAt code b.size is) (hs : Ordinary s)
    (hv : eval s text = .ok v) :
    Stored v ∧ Runs whole code 1 ⟨s, b.size, []⟩ ⟨s, b'.size, [v]⟩ := by
  obtain ⟨x, heval, hcode⟩ | hbad := readable_of_isAtom h
  · rw [hcode] at hx
    rw [heval] at hv
    exact ⟨x.stored hs hv, Atom.runs hx hwhole hints hw hc hs hv⟩
  · exact absurd hv (hbad s v)

theorem runs_of_condition {text : List Char} (h : IsCondition text)
    (hx : (compileExpr text).run b = (is, b')) (hwhole : Addressable whole) (hints : IntPool b)
    (hw : b'.Within whole) (hc : CodeAt code b.size is) (hs : Ordinary s)
    (hv : eval s text = .ok v) :
    ∃ k w, w.truthy = v.truthy ∧ Runs whole code k ⟨s, b.size, []⟩ ⟨s, b'.size, [w]⟩ := by
  obtain ⟨c, heval, hcode⟩ | hbad := readable_of_condition h
  · rw [hcode] at hx
    rw [heval] at hv
    exact c.runs hx hwhole hints hw hc hs hv
  · exact absurd hv (hbad s v)

/-! ## Integers in the pool -/

theorem keepsInts_of_isAtom {text : List Char} (h : isAtom text) : KeepsInts (compileExpr text) := by
  have hpoint : isBlank '.' = false := by decide
  simp only [isAtom, Bool.or_eq_true] at h
  obtain (h | h) | h := h
  · refine keepsInts_compileExpr fun hm => ?_
    exact absurd (forall_of_isIntegerText h '.' ((mem_trim_iff hpoint).2 hm)) (by decide)
  · rw [compileExpr_of_quoted h]
    exact keepsInts_emitString _
  · refine keepsInts_compileExpr fun hm => ?_
    simp only [isNameText, Bool.and_eq_true, List.all_eq_true] at h
    exact absurd (h.1.2 '.' ((mem_trim_iff hpoint).2 hm)) (by decide)

theorem keepsInts_of_condition {text : List Char} (h : IsCondition text) :
    KeepsInts (compileExpr text) := by
  obtain h | ⟨l, r, ht, hl, hr⟩ := h
  · exact keepsInts_of_isAtom h
  · refine keepsInts_compileExpr fun hm => ?_
    exact not_mem_comparison ht hl hr (by decide) (by decide) ((mem_trim_iff (by decide)).2 hm)

theorem keepsInts_compileBody {body : List Stmt} (h : ∀ t ∈ body, KeepsInts (compileStmt t)) :
    KeepsInts (compileBody body) := by
  induction body with
  | nil =>
    rw [compileBody]
    exact fun b hb => hb
  | cons t rest ih =>
    intro b hb
    rw [compileBody]
    exact ih (fun u hu => h u (by simp [hu])) _ (h t (by simp) b hb)

/-- Statements of the core pool no constant but integers. -/
theorem Stmt.Core.keepsInts {stmt : Stmt} (h : stmt.Core) : KeepsInts (compileStmt stmt) := by
  induction h with
  | assign hexpr =>
    intro b hb
    rw [compileStmt]
    exact (keepsInts_of_isAtom hexpr b hb).slotOf _
  | report hexpr =>
    intro b hb
    rw [compileStmt]
    exact keepsInts_of_isAtom hexpr b hb
  | branch hcond _ ih =>
    intro b hb
    rw [compileStmt]
    exact keepsInts_compileBody ih _ (keepsInts_of_condition hcond b hb)
  | meeting hcount _ ih =>
    intro b hb
    rw [compileStmt]
    exact keepsInts_compileBody ih _ (keepsInts_of_isAtom (by simp [isAtom, hcount.1]) b hb)

/-! ## Statements -/

/-- The code of an action does what the action does, and leaves the stack as it was. -/
def Simulates (whole : Builder) (code : Array UInt8) (act : Run Unit) (comp : Emit (List Instr)) :
    Prop :=
  ∀ ⦃b b' : Builder⦄ ⦃is : List Instr⦄ ⦃s s' : State⦄, comp.run b = (is, b') → IntPool b →
    b'.Within whole → CodeAt code b.size is → Ordinary s → act.run.run s = (.ok (), s') →
    Ordinary s' ∧ ∃ k, Runs whole code k ⟨s, b.size, []⟩ ⟨s', b'.size, []⟩

theorem simulates_nil : Simulates whole code (pure ()) (pure []) := by
  intro b b' is s s' hrun _ _ _ hs hx
  cases hrun
  cases hx
  exact ⟨hs, 0, .refl _⟩

theorem Simulates.seq {act act' : Run Unit} {comp comp' : Emit (List Instr)}
    (h : Simulates whole code act comp) (h' : Simulates whole code act' comp')
    (he : Emitting comp) (he' : Emitting comp') (hk : KeepsInts comp) :
    Simulates whole code (do act; act') (do let is ← comp; return is ++ (← comp')) := by
  intro b b' is s s' hrun hints hw hc hs hx
  obtain ⟨_, s₁, hx₁, hx₂⟩ := run_bind_eq_ok.1 hx
  obtain ⟨is₁, b₁, hcomp⟩ : ∃ is b₁, comp.run b = (is, b₁) := ⟨_, _, rfl⟩
  obtain ⟨is₂, b₂, hcomp'⟩ : ∃ is b₂, comp'.run b₁ = (is, b₂) := ⟨_, _, rfl⟩
  cases hrun.symm.trans (run_append hcomp hcomp')
  have hfirst := he b
  have hsecond := he' b₁
  have hints₁ := hk b hints
  rw [hcomp] at hfirst hints₁
  rw [hcomp'] at hsecond
  have hc₂ : CodeAt code b₁.size is₂ := by
    rw [hfirst.size]
    exact hc.right
  obtain ⟨hs₁, k₁, hr₁⟩ := h hcomp hints (hsecond.within.trans hw) hc.left hs hx₁
  obtain ⟨hs₂, k₂, hr₂⟩ := h' hcomp' hints₁ hw hc₂ hs₁ hx₂
  exact ⟨hs₂, _, hr₁.trans hr₂⟩

theorem simulates_body {depth : Nat} {body : List Stmt}
    (h : ∀ t ∈ body, Simulates whole code (execute depth t) (compileStmt t))
    (hk : ∀ t ∈ body, KeepsInts (compileStmt t)) :
    Simulates whole code (body.forM (execute depth)) (compileBody body) := by
  induction body with
  | nil => exact simulates_nil
  | cons t rest ih =>
    rw [compileBody]
    have hrest := ih (fun u hu => h u (by simp [hu])) fun u hu => hk u (by simp [hu])
    exact (h t (by simp)).seq hrest (emitting_compileStmt t) (emitting_compileBody rest)
      (hk t (by simp))

/-- A statement counts a step before its own work, and shows itself only in a trace. -/
theorem run_ticked {line : Nat} {title : String} {act : Run Unit} (hs : Ordinary s)
    (h : (do trace line title; tick; act : Run Unit).run.run s = (.ok (), s')) :
    ∃ s₁, Undisturbed s s₁ ∧ act.run.run s₁ = (.ok (), s') := by
  obtain ⟨_, s₁, h₁, hx⟩ := run_bind_eq_ok.1 h
  obtain ⟨_, s₂, h₂, hx'⟩ := run_bind_eq_ok.1 hx
  rw [run_trace hs.trace] at h₁
  cases h₁
  exact ⟨s₂, undisturbed_tick h₂, hx'⟩

theorem simulates_report {line depth : Nat} {expr : String} (h : isAtom expr.toList)
    (hwhole : Addressable whole) :
    Simulates whole code (execute (depth + 1) (.report line expr))
      (compileStmt (.report line expr)) := by
  intro b b' is s s' hrun hints hw hc hs hx
  obtain ⟨s₁, hu, hx⟩ := run_ticked hs hx
  obtain ⟨v, s₂, h₂, hx'⟩ := run_bind_eq_ok.1 hx
  obtain ⟨hv, rfl⟩ := run_evaluate_eq_ok h₂
  cases hx'
  obtain ⟨is₁, b₁, hexpr⟩ : ∃ is b₁, (compileExpr expr.toList).run b = (is, b₁) := ⟨_, _, rfl⟩
  rw [compileStmt] at hrun
  cases hrun.symm.trans (run_append hexpr rfl)
  have hemit := emitting_compileExpr expr.toList b
  have hlast : Emits b₁ [⟨.print, 0⟩] { b₁ with size := b₁.size + 1 } := emitting_emit .print 0 b₁
  rw [hexpr] at hemit
  have hcp : CodeAt code b₁.size [⟨.print, 0⟩] := by
    rw [hemit.size]
    exact hc.right
  have hs₂ := hs.undisturbed hu
  obtain ⟨hstored, hr⟩ :=
    runs_of_isAtom h hexpr hwhole hints (hlast.within.trans hw) hc.left hs₂ hv
  exact ⟨⟨hs₂.trace, hs₂.locals, hs₂.stored⟩, _,
    ((Runs.undisturbed hu).trans hr).trans (runs_print hcp hstored)⟩

theorem simulates_assign {line depth : Nat} {name expr : String} (h : isAtom expr.toList)
    (hwhole : Addressable whole) :
    Simulates whole code (execute (depth + 1) (.assign line name expr))
      (compileStmt (.assign line name expr)) := by
  intro b b' is s s' hrun hints hw hc hs hx
  obtain ⟨s₁, hu, hx⟩ := run_ticked hs hx
  obtain ⟨v, s₂, h₂, hx'⟩ := run_bind_eq_ok.1 hx
  obtain ⟨_, s₃, h₃, hadvance⟩ := run_bind_eq_ok.1 hx'
  obtain ⟨hv, rfl⟩ := run_evaluate_eq_ok h₂
  cases h₃
  obtain ⟨is₁, b₁, hexpr⟩ : ∃ is b₁, (compileExpr expr.toList).run b = (is, b₁) := ⟨_, _, rfl⟩
  obtain ⟨i, b₂, hid⟩ : ∃ i b₂, (slotOf name).run b₁ = (i, b₂) := ⟨_, _, rfl⟩
  rw [compileStmt] at hrun
  cases hrun.symm.trans (run_append hexpr (run_emit_pooled .store rfl id hid))
  have hpools := pools_slotOf name b₁
  have hslot := get?_slotOf name b₁
  have hemit := emitting_compileExpr expr.toList b
  rw [hid] at hpools hslot
  rw [hexpr] at hemit
  have hi : whole.slots.get? name = some i := hw.slots hslot
  have hlt : i < whole.slots.length := hwhole.sound.distinct.lt hi
  have hfew := hwhole.sound.slots
  have hsmall := hwhole.small
  have hlast : Emits b₁ [⟨.store, i⟩] { b₂ with size := b₂.size + 3 } :=
    .instr _ hpools (size_of_alwaysWide rfl _)
  have hcs : CodeAt code b₁.size [⟨.store, i⟩] := by
    rw [hemit.size]
    exact hc.right
  have hs₂ := hs.undisturbed hu
  have hua := undisturbed_advance hadvance
  obtain ⟨hstored, hr⟩ :=
    runs_of_isAtom h hexpr hwhole hints (hlast.within.trans hw) hc.left hs₂ hv
  have hstore : Runs whole code 1 ⟨s₂, b₁.size, [v]⟩ ⟨s₂.set name v, b₁.size + 3, []⟩ :=
    runs_store hs₂ hwhole.sound.distinct hi hcs (by omega)
  dsimp only
  rw [hpools.size]
  exact ⟨(hs₂.set name hstored).undisturbed hua, _,
    (((Runs.undisturbed hu).trans hr).trans hstore).trans (Runs.undisturbed hua)⟩

theorem simulates_branch {line depth : Nat} {condition : String} {body : List Stmt}
    (h : IsCondition condition.toList) (hwhole : Addressable whole)
    (hbody : Simulates whole code (body.forM (execute depth)) (compileBody body)) :
    Simulates whole code (execute (depth + 1) (.branch line condition body []))
      (compileStmt (.branch line condition body [])) := by
  intro b b' is s s' hrun hints hw hc hs hx
  obtain ⟨s₁, hu, hx⟩ := run_ticked hs hx
  obtain ⟨v, s₂, h₂, hx'⟩ := run_bind_eq_ok.1 hx
  obtain ⟨hv, rfl⟩ := run_evaluate_eq_ok h₂
  -- The code of the condition, the jump over the body, and the body.
  obtain ⟨is₁, b₁, hcond⟩ : ∃ is b₁, (compileExpr condition.toList).run b = (is, b₁) :=
    ⟨_, _, rfl⟩
  obtain ⟨is₂, b₂, hinside⟩ :
      ∃ is b₂, (compileBody body).run { b₁ with size := b₁.size + 3 } = (is, b₂) := ⟨_, _, rfl⟩
  have hrun' : (compileStmt (.branch line condition body [])).run b =
      (is₁ ++ [⟨.jumpIfFalse, b₂.size⟩] ++ is₂, b₂) := by
    rw [compileStmt, StateT.run_bind, hcond]
    exact congrArg (fun r => (is₁ ++ [⟨.jumpIfFalse, r.2.size⟩] ++ r.1, r.2)) hinside
  cases hrun.symm.trans hrun'
  have hfirst := emitting_compileExpr condition.toList b
  have hints₁ := keepsInts_of_condition h b hints
  have hinner := emitting_compileBody body { b₁ with size := b₁.size + 3 }
  rw [hcond] at hfirst hints₁
  rw [hinside] at hinner
  have hjump : Emits b₁ [⟨.jumpIfFalse, b'.size⟩] { b₁ with size := b₁.size + 3 } :=
    .instr _ (.refl b₁) (size_of_alwaysWide rfl _)
  have hcj : CodeAt code b₁.size [⟨.jumpIfFalse, b'.size⟩] := by
    rw [hfirst.size]
    exact hc.left.right
  have hcb : CodeAt code (b₁.size + 3) is₂ := by
    have hsize : b₁.size + 3 = _ := (hfirst.append hjump).size
    rw [hsize]
    exact hc.right
  have hs₂ := hs.undisturbed hu
  obtain ⟨k, w, htruth, hr⟩ := runs_of_condition h hcond hwhole hints
    ((hjump.append hinner).within.trans hw) hc.left.left hs₂ hv
  have hr₁ := ((Runs.undisturbed hu).trans hr).trans
    (runs_jumpIfFalse hcj (Nat.lt_succ_of_le (Nat.le_trans hw.size hwhole.small)))
  rw [htruth] at hr₁
  cases htrue : v.truthy with
  | true =>
    rw [htrue] at hx' hr₁
    obtain ⟨hs', k', hr₂⟩ := hbody hinside hints₁ hw hcb hs₂ hx'
    exact ⟨hs', _, hr₁.trans hr₂⟩
  | false =>
    rw [htrue] at hx' hr₁
    cases hx'
    exact ⟨hs₂, _, hr₁⟩

/-- A meeting goes through its body as often as its counter on the stack says. -/
theorem runs_times {act : Run Unit} {comp : Emit (List Instr)} {n : Nat}
    (hact : Simulates whole code act comp) (hrun : comp.run b = (is, b')) (hints : IntPool b)
    (hw : b'.Within whole) (hc : CodeAt code b.size is)
    (hcm : CodeAt code b'.size [⟨.meeting, b.size⟩]) (hpos : b.size ≠ 0) (hsmall : b.size < 65536)
    (hs : Ordinary s) (hx : (times act (n + 1)).run.run s = (.ok (), s')) :
    Ordinary s' ∧ ∃ k, Runs whole code k ⟨s, b.size, [.int (n + 1)]⟩ ⟨s', b'.size + 3, []⟩ := by
  induction n generalizing s with
  | zero =>
    obtain ⟨_, s₁, hx₁, hx₂⟩ := run_bind_eq_ok.1 hx
    cases hx₂
    obtain ⟨hs', k, hr⟩ := hact hrun hints hw hc hs hx₁
    exact ⟨hs', _, (hr.above [_]).trans (runs_meeting_over hcm (by decide))⟩
  | succ n ih =>
    obtain ⟨_, s₁, hx₁, hx₂⟩ := run_bind_eq_ok.1 hx
    obtain ⟨hs₁, k, hr⟩ := hact hrun hints hw hc hs hx₁
    obtain ⟨hs', k', hr'⟩ := ih hs₁ hx₂
    have hback : Runs whole code 1 ⟨s₁, b'.size, [.int ((n + 1 : Nat) + 1)]⟩
        ⟨s₁, b.size, [.int (n + 1)]⟩ := runs_meeting_again hcm hsmall hpos (by omega)
    exact ⟨hs', _, ((hr.above [_]).trans hback).trans hr'⟩

theorem eq_ok_of_ofFault {α : Type} {r : Except Fault α} {a : α} (h : ofFault r = .ok a) :
    r = .ok a := by
  cases r with
  | error e => cases h
  | ok b =>
    cases h
    rfl

/-- The interpreter counts a meeting of the core to the integer itself, in spite of the way through a
double. -/
theorem run_count {count : String} {act : Int → Run Unit} (h : IsCount count.toList)
    (hx : (do
      let x ← evaluateFloat count
      let n ← Run.ofExcept (ofFault (Number.intOfFloat x))
      act n : Run Unit).run.run s = (.ok (), s')) :
    ∃ n : Nat, Readable count.toList (.int (n + 1)) ∧ (act (n + 1)).run.run s = (.ok (), s') := by
  obtain ⟨hint, k, hread, hk, hexact⟩ := h
  have hcount := readable_of_readInt hint hread
  obtain ⟨x, s₁, h₁, hx'⟩ := run_bind_eq_ok.1 hx
  obtain ⟨n, s₂, h₂, hact⟩ := run_bind_eq_ok.1 hx'
  obtain ⟨v, s₃, h₃, h₄⟩ := run_bind_eq_ok.1 h₁
  obtain ⟨hv, rfl⟩ := run_evaluate_eq_ok h₃
  obtain ⟨hfloat, rfl⟩ := run_ofExcept_eq_ok h₄
  obtain ⟨htrunc, rfl⟩ := run_ofExcept_eq_ok h₂
  rw [hcount.1] at hv
  cases hv
  have hfloat' : Number.floatOfInt k = .ok x := eq_ok_of_ofFault hfloat
  rw [hfloat', ok_bind, eq_ok_of_ofFault htrunc] at hexact
  obtain rfl : n = k := Except.ok.inj hexact
  obtain ⟨j, rfl⟩ : ∃ j : Nat, n = j + 1 := ⟨(n - 1).toNat, by omega⟩
  exact ⟨j, hcount, hact⟩

theorem size_ne_zero_of_push {v : Value} {b b' : Builder} {is : List Instr}
    (h : (do emit .push (← constantId v) : Emit (List Instr)).run b = (is, b')) : b'.size ≠ 0 := by
  obtain ⟨i, b₁, hid⟩ : ∃ i b₁, (constantId v).run b = (i, b₁) := ⟨_, _, rfl⟩
  cases h.symm.trans (run_emit_pooled .push rfl id hid)
  exact Nat.succ_ne_zero _

theorem size_meeting {n : Nat} (h : n ≠ 0) : Instr.size ⟨.meeting, n⟩ = 3 := by
  simp [Instr.size, Instr.wide, h]

/-- The code of a meeting: the count, the body, and the way back to the body. -/
theorem run_compile_meeting {line : Nat} {count : String} {body : List Stmt} {b b₁ b₂ : Builder}
    {is₁ is₂ : List Instr} (hexpr : (compileExpr count.toList).run b = (is₁, b₁))
    (hinside : (compileBody body).run b₁ = (is₂, b₂)) (hpos : b₁.size ≠ 0) :
    (compileStmt (.meeting line count body)).run b =
      (is₁ ++ is₂ ++ [⟨.meeting, b₁.size⟩], { b₂ with size := b₂.size + 3 }) := by
  rw [compileStmt, StateT.run_bind, hexpr, ← size_meeting hpos]
  exact congrArg (fun r => (is₁ ++ r.1 ++ [⟨.meeting, b₁.size⟩],
    { r.2 with size := r.2.size + Instr.size ⟨.meeting, b₁.size⟩ })) hinside

theorem simulates_meeting {line depth : Nat} {count : String} {body : List Stmt}
    (h : IsCount count.toList) (hwhole : Addressable whole)
    (hbody : Simulates whole code (body.forM (execute depth)) (compileBody body)) :
    Simulates whole code (execute (depth + 1) (.meeting line count body))
      (compileStmt (.meeting line count body)) := by
  intro b b' is s s' hrun hints hw hc hs hx
  obtain ⟨s₁, hu, hx⟩ := run_ticked hs hx
  obtain ⟨n, hcount, hloop⟩ := run_count h hx
  -- The code of the count, the body, and the way back.
  obtain ⟨is₁, b₁, hexpr⟩ : ∃ is b₁, (compileExpr count.toList).run b = (is, b₁) := ⟨_, _, rfl⟩
  obtain ⟨is₂, b₂, hinside⟩ : ∃ is b₂, (compileBody body).run b₁ = (is, b₂) := ⟨_, _, rfl⟩
  have hpos : b₁.size ≠ 0 := size_ne_zero_of_push (hcount.2 ▸ hexpr)
  have hback := size_meeting hpos
  cases hrun.symm.trans (run_compile_meeting hexpr hinside hpos)
  have hfirst := emitting_compileExpr count.toList b
  have hinner := emitting_compileBody body b₁
  have hints₁ : IntPool b₁ := by
    have hkept := (Atom.int (n + 1)).keepsInts b hints
    rwa [← hcount.2, hexpr] at hkept
  rw [hexpr] at hfirst
  rw [hinside] at hinner
  have hw₂ : b₂.Within whole := (Emits.instr _ (.refl b₂) hback).within.trans hw
  have hw₁ : b₁.Within whole := hinner.within.trans hw₂
  have hcb : CodeAt code b₁.size is₂ := by
    rw [hfirst.size]
    exact hc.left.right
  have hcm : CodeAt code b₂.size [⟨.meeting, b₁.size⟩] := by
    rw [(hfirst.append hinner).size]
    exact hc.right
  have hs₁ := hs.undisturbed hu
  have hr : Runs whole code 1 ⟨s₁, b.size, []⟩ ⟨s₁, b₁.size, [.int (n + 1)]⟩ :=
    Atom.runs (hcount.2 ▸ hexpr) hwhole hints hw₁ hc.left.left hs₁ rfl
  obtain ⟨hs', k, hr'⟩ := runs_times hbody hinside hints₁ hw₂ hcb hcm hpos
    (Nat.lt_succ_of_le (Nat.le_trans hw₁.size hwhole.small)) hs₁ hloop
  exact ⟨hs', _, ((Runs.undisturbed hu).trans hr).trans hr'⟩

/-! ## Programs -/

theorem simulates_unfinished {stmt : Stmt} {comp : Emit (List Instr)} :
    Simulates whole code (execute 0 stmt) comp :=
  fun _ _ _ _ _ _ _ _ _ _ hx => nomatch congrArg Prod.fst hx

theorem Stmt.Core.simulates {stmt : Stmt} (h : stmt.Core) (hwhole : Addressable whole)
    (depth : Nat) : Simulates whole code (execute depth stmt) (compileStmt stmt) := by
  induction h generalizing depth with
  | assign hexpr =>
    cases depth with
    | zero => exact simulates_unfinished
    | succ depth => exact simulates_assign hexpr hwhole
  | report hexpr =>
    cases depth with
    | zero => exact simulates_unfinished
    | succ depth => exact simulates_report hexpr hwhole
  | branch hcond hbody ih =>
    cases depth with
    | zero => exact simulates_unfinished
    | succ depth =>
      exact simulates_branch hcond hwhole
        (simulates_body (fun t ht => ih t ht depth) fun t ht => (hbody t ht).keepsInts)
  | meeting hcount hbody ih =>
    cases depth with
    | zero => exact simulates_unfinished
    | succ depth =>
      exact simulates_meeting hcount hwhole
        (simulates_body (fun t ht => ih t ht depth) fun t ht => (hbody t ht).keepsInts)

/-- The image of a program: the code of its statements, and the instruction that ends a run. -/
theorem compile_eq (p : Program) :
    ∃ is b, (compileBody p.body).run {} = (is, b) ∧
      compile p = Builder.image { b with size := b.size + 1 } (is ++ [⟨.finish, 0⟩]) := by
  obtain ⟨is, b, h⟩ : ∃ is b, (compileBody p.body).run {} = (is, b) := ⟨_, _, rfl⟩
  refine ⟨is, b, h, ?_⟩
  have hinstr : instructions p = (is ++ [⟨.finish, 0⟩], { b with size := b.size + 1 }) :=
    run_append h rfl
  rw [compile, hinstr]

theorem not_get?_global {settings : Settings} {name : String} {v : Value} (hn : name ∉ predefined) :
    ({ settings } : State).global.get? name ≠ some v := by
  simp only [predefined, List.mem_cons, List.not_mem_nil, or_false, not_or] at hn
  simp [Table.get?, Ne.symm hn.1, Ne.symm hn.2.1, Ne.symm hn.2.2]

theorem ordinary_fresh {settings : Settings} (h : settings.trace = false) :
    Ordinary { settings } :=
  ⟨h, rfl, fun hn hv => absurd hv (not_get?_global hn)⟩

/-- A machine starts where the interpreter does. -/
theorem at_start (settings : Settings) (b : Builder) (is : List Instr) (seed limit : Int) :
    At b (assemble is).toArray ⟨{ settings }, 0, []⟩ []
      (Machine.start .plain (b.image is) seed limit false) :=
  ⟨⟨rfl, rfl, rfl, rfl, rfl, fun hn hv => absurd hv (not_get?_global hn)⟩, rfl, rfl⟩

/-- **Compiled programs print what programs print.** Let the statements of a program be of the core
and its code be at most 65535 bytes long. If the interpreter comes to the end of the program, at any
depth and without a trace, then the machine comes to the end of the compiled code, for every step
limit that is large enough and every seed, and it has printed the same lines. -/
theorem compile_preserves_output (p : Program) (hcore : ∀ t ∈ p.body, t.Core)
    (hsmall : (compile p).code.length ≤ 65535) (settings : Settings)
    (htrace : settings.trace = false) (depth : Nat) (s : State)
    (hrun : (p.run depth).run.run { settings } = (.ok (), s)) :
    ∃ enough : Nat, ∀ limit : Int, enough ≤ limit → ∀ seed : Int, ∃ m,
      Machine.run (.float 0.0) false (Machine.start .plain (compile p) seed limit false) =
        (true, m) ∧ m.printed = s.printed := by
  obtain ⟨is, b, hbody, himage⟩ := compile_eq p
  rw [himage] at hsmall ⊢
  have hemits : Emits {} (is ++ [⟨.finish, 0⟩]) { b with size := b.size + 1 } := by
    have hfirst := emitting_compileBody p.body {}
    rw [hbody] at hfirst
    exact hfirst.append (emitting_emit .finish 0 b)
  have hwhole : Addressable { b with size := b.size + 1 } := by
    refine ⟨hemits.sound sound_empty, ?_⟩
    rw [hemits.size]
    simpa [Builder.image] using hsmall
  have hcode : CodeAt (assemble (is ++ [⟨.finish, 0⟩])).toArray 0 (is ++ [⟨.finish, 0⟩]) :=
    ⟨[], [], by simp, rfl⟩
  have hfinish : CodeAt (assemble (is ++ [⟨.finish, 0⟩])).toArray b.size [⟨.finish, 0⟩] := by
    have hfirst := emitting_compileBody p.body {}
    rw [hbody] at hfirst
    rw [hfirst.size]
    exact hcode.right
  obtain ⟨_, s₁, h₁, hx⟩ := run_bind_eq_ok.1 hrun
  rw [run_trace htrace] at h₁
  cases h₁
  obtain ⟨-, k, hruns⟩ := simulates_body (fun t ht => (hcore t ht).simulates hwhole depth)
    (fun t ht => (hcore t ht).keepsInts) hbody nofun (emitting_emit .finish 0 b).within
    hcode.left (ordinary_fresh htrace) hx
  refine ⟨k + 1, fun limit hlimit seed => ?_⟩
  -- After `k` rounds the machine is at the last instruction.
  obtain ⟨m, hreach, hat⟩ := hruns [] _ (at_start settings _ _ seed limit)
  refine ⟨m.counted, ?_, hat.agrees.printed⟩
  generalize hstart : Machine.start .plain _ seed limit false = m₀ at hreach ⊢
  have hrounds : m₀.roundsLeft = k + ((limit - k - 1).toNat + 1) := by
    subst hstart
    simp only [Machine.roundsLeft, Machine.start]
    omega
  have hloop : Machine.loop (.float 0.0) m₀.roundsLeft m₀ = (.ok (), m.counted) := by
    rw [hrounds, hreach]
    rw [← hat.agrees.code] at hfinish
    exact Machine.loop_finish hfinish hat.pc hat.agrees.traced _
  rw [Machine.run, hloop]
  rfl

/-- A meeting in a meeting, whose first round changes what the others find. -/
def nestedMeetings : Program where
  body :=
    [.assign 1 "total" "7",
      .meeting 2 "2"
        [.meeting 3 "2" [.branch 4 "total == 7" [.report 5 "\"rapat\"", .assign 6 "total" "-1"] []],
          .report 7 "total"]]

theorem isCount_two : IsCount "2".toList := by
  refine ⟨by decide, 2, rfl, by decide, ?_⟩
  have h : (Number.floatOfInt 2 >>= Number.intOfFloat).toOption = some 2 := by decide +kernel
  cases hr : (Number.floatOfInt 2 >>= Number.intOfFloat) with
  | error e => simp [hr, Except.toOption] at h
  | ok n =>
    rw [hr] at h
    rw [Option.some.inj h]

theorem core_nestedMeetings : ∀ t ∈ nestedMeetings.body, t.Core := by
  have hequal : IsCondition "total == 7".toList :=
    .inr ⟨"total ".toList, " 7".toList, by decide, by decide, by decide⟩
  have hinner : ∀ t ∈ [Stmt.report 5 "\"rapat\"", .assign 6 "total" "-1"], t.Core := by
    simp only [List.forall_mem_cons]
    exact ⟨.report (by decide), .assign (by decide), nofun⟩
  have hbranch : ∀ t ∈ [Stmt.branch 4 "total == 7" [.report 5 "\"rapat\"", .assign 6 "total" "-1"] []],
      t.Core := by
    simp only [List.forall_mem_cons]
    exact ⟨.branch hequal hinner, nofun⟩
  simp only [nestedMeetings, List.forall_mem_cons]
  refine ⟨.assign (by decide), .meeting isCount_two ?_, nofun⟩
  simp only [List.forall_mem_cons]
  exact ⟨.meeting isCount_two hbranch, .report (by decide), nofun⟩

theorem compile_preserves_output_nested :
    ∃ s, (nestedMeetings.run 4).run.run {} = (.ok (), s) ∧
      s.printed = #["rapat\n", "-1\n", "-1\n"] ∧
      ∃ enough : Nat, ∀ limit : Int, enough ≤ limit → ∀ seed : Int, ∃ m,
        Machine.run (.float 0.0) false
          (Machine.start .plain (compile nestedMeetings) seed limit false) = (true, m) ∧
        m.printed = s.printed := by
  have hok : ((nestedMeetings.run 4).run.run {}).1.toOption = some () := by decide +kernel
  have hprinted : ((nestedMeetings.run 4).run.run {}).2.printed =
      #["rapat\n", "-1\n", "-1\n"] := by decide +kernel
  generalize hrun : (nestedMeetings.run 4).run.run {} = r at hok hprinted
  obtain ⟨r, s⟩ := r
  cases r with
  | error e => simp [Except.toOption] at hok
  | ok u =>
    exact ⟨s, rfl, hprinted, compile_preserves_output nestedMeetings core_nestedMeetings (by decide +kernel) {}
      rfl 4 s hrun⟩

end Birokrasi.Structured
