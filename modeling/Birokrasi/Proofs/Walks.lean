import Birokrasi.Proofs.Building
import Birokrasi.Proofs.RunStates

/-!
# Walks through code

A walk is a part of a run: the machine goes from one state to another and executes the instructions at
certain addresses on the way (`Walk`). A run that begins with a walk goes on from its last state
(`Walk.loop`), and has visited these addresses and no others until then (`Walk.visited`).
-/

namespace Birokrasi.Machine

open Birokrasi.Bytecode

/-- From `m` the machine gets to `m'` without a delay, through the instructions at these addresses. -/
inductive Walk : List Nat → Machine → Machine → Prop
  | nil (m : Machine) : Walk [] m m
  | cons {a : Nat} {as : List Nat} {m m₁ m' : Machine} (hpc : m.pc = a) (hlt : a < m.code.size)
      (hround : perform (round (.float 0.0)) m = (.ok true, m₁)) (hrest : Walk as m₁ m') :
      Walk (a :: as) m m'

variable {as as' : List Nat} {a : Nat} {i : Instr} {m m' m'' : Machine}

theorem Walk.append (h : Walk as m m') (h' : Walk as' m' m'') : Walk (as ++ as') m m'' := by
  induction h with
  | nil m => exact h'
  | cons hpc hlt hround _ ih => exact .cons hpc hlt hround (ih h')

/-- One instruction that succeeds. -/
theorem Walk.instr (hc : CodeAt m.code a [i]) (hpc : m.pc = a) (ht : m.traced = false)
    (hop : i.op ≠ .finish) (hx : perform (effect i.op) m.counted = (.ok (), m')) :
    Walk [a] m m' := by
  have hc' : CodeAt m.counted.code a [i] := hc
  refine .cons hpc hc.lt_size ?_ (.nil m')
  rw [perform_round ht (hc'.fetch hpc), perform_execute hop hx]

theorem Walk.loop (h : Walk as m m') (rounds : Nat) :
    loop (.float 0.0) (as.length + rounds) m = loop (.float 0.0) rounds m' := by
  induction h with
  | nil m => rw [List.length_nil, Nat.zero_add]
  | @cons a as m m₁ m' hpc hlt hround _ ih =>
    have hdue : m.pc < m.code.size := by omega
    rw [List.length_cons, show as.length + 1 + rounds = (as.length + rounds) + 1 by omega,
      Machine.loop, if_pos hdue, hround]
    exact ih

/-- The addresses at which a run executes an instruction, in so many rounds at most. -/
def visited (rounds : Nat) (m : Machine) : List Int :=
  ((course (.float 0.0)).begun rounds m).map Machine.pc

theorem Walk.visited (h : Walk as m m') (rounds : Nat) :
    m.visited (as.length + rounds) = as.map Int.ofNat ++ m'.visited rounds := by
  unfold Machine.visited
  induction h with
  | nil m => rw [List.length_nil, Nat.zero_add, List.map_nil, List.nil_append]
  | @cons a as m m₁ m' hpc hlt hround _ ih =>
    have hdue : (course (.float 0.0)).due m = true := decide_eq_true (by omega)
    have hround' : (course (.float 0.0)).round.run.run m = (.ok true, m₁) := hround
    rw [List.length_cons, show as.length + 1 + rounds = (as.length + rounds) + 1 by omega,
      Course.begun, if_pos hdue, hround', List.map_cons, List.map_cons, List.cons_append, hpc, ← ih]
    rfl

/-! ## Values of the pools -/

/-- A machine that has these pools and shows no trace. -/
structure HasPools (constants : List Value) (strings : List String) (m : Machine) : Prop where
  constants : m.constants = constants.toArray
  strings : m.strings = strings.toArray
  traced : m.traced = false

/-- A machine that has the pools of `whole`. -/
abbrev Loaded (whole : Builder) : Machine → Prop := HasPools whole.constants whole.strings

/-- A machine that has been given an image to run, without a trace. -/
structure Holds (image : Image) (m : Machine) : Prop
    extends HasPools image.constants image.strings m where
  code : m.code = image.code.toArray

/-- Instructions that push a value, in one round of every machine with these pools. -/
structure Pushes (whole b b' : Builder) (is : List Instr) (v : Value) : Prop where
  size : b'.size = b.size + 3
  walk : ∀ {m : Machine}, Loaded whole m → CodeAt m.code b.size is → m.pc = b.size →
    Walk [b.size] m { m with pc := b'.size, steps := m.steps + 1, stack := v :: m.stack }

theorem Walk.push {n : Nat} {v : Value} (hc : CodeAt m.code a [⟨.push, n⟩]) (hpc : m.pc = a)
    (ht : m.traced = false) (hn : n < 65536) (hv : m.pooled n = some v) :
    Walk [a] m { m with pc := (a + 3 : Nat), steps := m.steps + 1, stack := v :: m.stack } := by
  have hc' : CodeAt m.counted.code a [⟨.push, n⟩] := hc
  have ho : perform operand m.counted = (.ok n, m.counted) := hc'.operand hpc (Bool.or_true _) hn
  have hx := perform_push ho (show m.counted.pooled n = some v from hv)
  have hnext : m.pc + 3 = ((a + 3 : Nat) : Int) := by omega
  have hpush := Walk.instr hc hpc ht (show Opcode.push ≠ .finish by decide) hx
  rw [← hnext]
  exact hpush

/-- A meeting whose counter is used up. -/
theorem Walk.meet_over {n : Nat} {v : Value} {rest : List Value}
    (hc : CodeAt m.code a [⟨.meeting, n⟩]) (hpc : m.pc = a) (ht : m.traced = false)
    (hstack : m.stack = v :: rest) (hmore : v.greater (.int 1) = .ok false) :
    Walk [a] m { m with pc := (a + 3 : Nat), steps := m.steps + 1, stack := rest } := by
  have hx := perform_meet_over (show m.counted.stack = v :: rest from hstack) hmore
  have hnext : m.pc + 3 = ((a + 3 : Nat) : Int) := by omega
  have hover := Walk.instr hc hpc ht (show Opcode.meeting ≠ .finish by decide) hx
  rw [← hnext]
  exact hover

/-- A meeting that has its body gone through again. -/
theorem Walk.meet_again {n : Nat} {v left : Value} {rest : List Value}
    (hc : CodeAt m.code a [⟨.meeting, n⟩]) (hpc : m.pc = a) (ht : m.traced = false)
    (hpos : n ≠ 0) (hn : n < 65536) (hstack : m.stack = v :: rest)
    (hmore : v.greater (.int 1) = .ok true) (hleft : v.sub (.int 1) = .ok left) :
    Walk [a] m { m with pc := n, steps := m.steps + 1, stack := left :: rest } := by
  have hwide : Instr.wide ⟨.meeting, n⟩ := by simp [Instr.wide, hpos]
  have ho (stack : List Value) : perform operand { m.counted with stack } =
      (.ok n, { m.counted with stack }) := by
    have hc' : CodeAt ({ m.counted with stack } : Machine).code a [⟨.meeting, n⟩] := hc
    exact hc'.operand hpc hwide hn
  have hx := perform_meet_again (show m.counted.stack = v :: rest from hstack) hmore hleft ho
  exact Walk.instr hc hpc ht (show Opcode.meeting ≠ .finish by decide) hx

section Pushes

variable {whole b b' : Builder} {is : List Instr}

/-- A constant pushes the value that the pool has under its number. -/
theorem pushes_entry {v w : Value} (hv : IsNumeral v)
    (hentry : ((constantId v).run b).2.constants[((constantId v).run b).1]? = some w)
    (hrun : (do emit .push (← constantId v) : Emit (List Instr)).run b = (is, b'))
    (hw : b'.Within whole) (hfew : whole.constants.length ≤ 0x8000) :
    w ∈ whole.constants ∧ Pushes whole b b' is w := by
  obtain ⟨i, b₁, hid⟩ : ∃ i b₁, (constantId v).run b = (i, b₁) := ⟨_, _, rfl⟩
  have hsize := (pools_constantId hv b).size
  rw [hid] at hsize hentry
  dsimp only at hsize
  cases hrun.symm.trans (run_emit_pooled .push rfl id hid)
  have hlast : whole.constants[i]? = some w := getElem?_of_prefix hw.constants hentry
  have hlt : i < whole.constants.length := (List.getElem?_eq_some_iff.1 hlast).1
  refine ⟨List.mem_of_getElem? hlast, by simp [hsize], fun {m} hm hc hpc => ?_⟩
  have hpooled : m.pooled i = some w := by
    rw [pooled, if_neg (by omega), hm.constants]
    simpa using hlast
  have hwalk := Walk.push hc hpc hm.traced (show id i < 65536 by simp only [id]; omega) hpooled
  dsimp only
  rw [hsize]
  exact hwalk

/-- A constant pushes the first value of the pool that is equal to it. -/
theorem exists_pushes_constant {v : Value} (hv : IsNumeral v)
    (hrun : (do emit .push (← constantId v) : Emit (List Instr)).run b = (is, b'))
    (hw : b'.Within whole) (hfew : whole.constants.length ≤ 0x8000) :
    ∃ w ∈ whole.constants, Pushes whole b b' is w ∧ (w = v ∨ w.same v = true) := by
  have hentry : ∃ w, ((constantId v).run b).2.constants[((constantId v).run b).1]? = some w ∧
      (w = v ∨ w.same v = true) := by
    rw [run_constantId]
    split
    next i hfind =>
      obtain ⟨hi, hsame, -⟩ := List.findIdx?_eq_some_iff_getElem.1 hfind
      exact ⟨_, List.getElem?_eq_getElem hi, .inr hsame⟩
    · exact ⟨v, by simp, .inl rfl⟩
  obtain ⟨w, hw₁, hequal⟩ := hentry
  obtain ⟨hmem, hpushes⟩ := pushes_entry hv hw₁ hrun hw hfew
  exact ⟨w, hmem, hpushes, hequal⟩

theorem pushes_text {s : String} (hrun : (emitString s).run b = (is, b')) (hw : b'.Within whole)
    (hfew : whole.strings.length ≤ 0x8000) : Pushes whole b b' is (.text s) := by
  obtain ⟨i, b₁, hid⟩ : ∃ i b₁, (stringId s).run b = (i, b₁) := ⟨_, _, rfl⟩
  have hsize : b₁.size = b.size := by
    have hpools := (pools_stringId s b).size
    rwa [hid] at hpools
  have hentry := getElem?_stringId s b
  rw [hid] at hentry
  cases hrun.symm.trans (run_emit_pooled .push rfl (· ||| stringMark) hid)
  have hlast : whole.strings[i]? = some s := getElem?_of_prefix hw.strings hentry
  have hlt : i < whole.strings.length := (List.getElem?_eq_some_iff.1 hlast).1
  refine ⟨by simp [hsize], fun {m} hm hc hpc => ?_⟩
  dsimp only at hc ⊢
  rw [or_stringMark (by omega)] at hc
  have hpooled : m.pooled (i + 0x8000) = some (.text s) := by
    rw [pooled, if_pos (by omega), Nat.add_sub_cancel, hm.strings]
    simp [hlast]
  rw [hsize]
  exact Walk.push hc hpc hm.traced (by omega) hpooled

end Pushes

end Birokrasi.Machine
