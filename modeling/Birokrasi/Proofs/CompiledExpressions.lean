import Birokrasi.Proofs.Agreement
import Birokrasi.Proofs.CompilerCorrectness
import Birokrasi.Proofs.ExpressionTexts
import Birokrasi.Proofs.IrregularOperators
import Birokrasi.Proofs.Walks

/-!
# What compiled expressions compute

The code of a tree leaves the stack as it was, with the value of the tree on top, or fails for a division
by zero (`Tree.computes`). So an expression without underscores computes what `Chain.reading` says of it,
if the compiler has left no operand out; that is its usual value if its operators are regular
(`compiled_expression`).
-/

namespace Birokrasi.Machine

open Birokrasi.Bytecode

/-! ## Operators -/

section Operators

variable {m : Machine} {a b v : Value} {rest : List Value}

theorem equal_int (k n : Int) : (Value.int k).equal (.int n) = decide (k = n) := by
  rw [Bool.eq_iff_iff, decide_eq_true_eq]
  simp [Value.equal, Value.equalAs, Value.number?, Number.equal, Number.compare?]

theorem less_int (k n : Int) : (Value.int k).less (.int n) = .ok (decide (k < n)) := by
  have hcmp : (compare k n == .lt) = decide (k < n) := by
    rw [Bool.eq_iff_iff, beq_iff_eq, decide_eq_true_eq]
    exact Int.compare_eq_lt
  rw [Value.less, ordered_int, Value.Comparison.holds, hcmp]

end Operators

/-- The run fails in `k` rounds, without a delay. -/
def FailsIn (k : Nat) (e : Failure) (m : Machine) : Prop :=
  ∃ m', ∀ rounds, loop (.float 0.0) (k + rounds) m = (.error e, m')

section Failing

variable {m m' : Machine} {k k' : Nat} {e : Failure}

theorem ReachesIn.fails (h : ReachesIn k m m') (h' : FailsIn k' e m') : FailsIn (k + k') e m := by
  obtain ⟨last, hlast⟩ := h'
  refine ⟨last, fun rounds => ?_⟩
  rw [Nat.add_assoc, h, hlast]

theorem FailsIn.more (h : FailsIn k e m) (j : Nat) : FailsIn (k + j) e m := by
  obtain ⟨last, hlast⟩ := h
  refine ⟨last, fun rounds => ?_⟩
  rw [Nat.add_assoc, hlast]

theorem FailsIn.instr {i : Instr} {a : Nat} (hc : CodeAt m.code a [i]) (hpc : m.pc = a)
    (ht : m.traced = false) (hx : perform (effect i.op) m.counted = (.error e, m')) :
    FailsIn 1 e m := by
  have hc' : CodeAt m.counted.code a [i] := hc
  have hlt : m.pc < m.code.size := by
    have := hc.lt_size
    omega
  have hexecute : perform (execute i.op.byte.toNat) m.counted = (.error e, m') := by
    simp only [execute, opcode?_byte]
    exact perform_bind_of_error _ hx
  refine ⟨m', fun rounds => ?_⟩
  rw [Nat.add_comm, loop, if_pos hlt, perform_round ht (hc'.fetch hpc), hexecute]

theorem Walk.load {n a : Nat} (hc : CodeAt m.code a [⟨.load, n⟩]) (hpc : m.pc = a)
    (ht : m.traced = false) (hn : n < 65536) :
    Walk [a] m { m with pc := (a + 3 : Nat), steps := m.steps + 1, stack := m.valueOf n :: m.stack } := by
  have hc' : CodeAt m.counted.code a [⟨.load, n⟩] := hc
  have ho : perform operand m.counted = (.ok n, m.counted) := hc'.operand hpc (Bool.or_true _) hn
  have hnext : m.pc + 3 = ((a + 3 : Nat) : Int) := by omega
  have hload := Walk.instr hc hpc ht (show Opcode.load ≠ .finish by decide) (perform_load ho)
  rw [← hnext]
  exact hload

end Failing

end Birokrasi.Machine

namespace Birokrasi.Calculation

open Birokrasi.Bytecode
open Birokrasi.Machine (CodeAt ReachesIn FailsIn Walk Loaded perform effect)
open Birokrasi.Structured (Addressable)

variable {x : Operand} {o : Operator} {c : Chain Operand} {m : Machine} {rest : List Value}

theorem truth_decide (p : Prop) [Decidable p] :
    Machine.truth (decide p) = .int (if p then 1 else 0) := by
  simp [Machine.truth]

/-- The machine applies an operator to the two values pushed last. -/
theorem perform_operator {a b v : Int} (hs : m.stack = .int b :: .int a :: rest)
    (h : o.apply a b = some v) :
    perform (effect o.opcode) m = (.ok (), { m with stack := .int v :: rest, pc := m.pc + 1 }) := by
  cases o with
  | add | sub | mul =>
    cases h
    exact Machine.perform_binary hs fun m => Machine.perform_calculate rfl
  | div =>
    rw [Operator.apply] at h
    split at h
    · cases h
    next hb =>
      cases h
      have hzero : (Value.int b).equal (.int 0) = false := by
        rw [Machine.equal_int, decide_eq_false hb]
      have hquotient : (Value.int a).floorDiv (.int b) = .ok (.int (a.fdiv b)) := by
        show (Number.floorDiv (.int a) (.int b) >>= fun r => pure (Value.ofNumber r)) = _
        rw [Number.floorDiv, if_neg hb]
        rfl
      refine Machine.perform_binary hs fun m => ?_
      unfold Machine.divide
      rw [hzero, if_neg Bool.false_ne_true]
      exact Machine.perform_calculate hquotient
  | eq =>
    cases h
    refine Machine.perform_binary hs fun m => ?_
    rw [Machine.equal_int, truth_decide]
    rfl
  | lt =>
    cases h
    refine Machine.perform_binary hs fun m => ?_
    rw [Machine.perform_bind_of_ok _ (Machine.perform_calculate (Machine.less_int a b)), truth_decide]
    rfl
  | gt =>
    cases h
    refine Machine.perform_binary hs fun m => ?_
    rw [Machine.perform_bind_of_ok _ (Machine.perform_calculate (Machine.greater_int a b)), truth_decide]
    rfl

theorem perform_operator_none {a b : Int} (hs : m.stack = .int b :: .int a :: rest)
    (h : o.apply a b = none) :
    perform (effect o.opcode) m = (.error .divisionByZero, { m with stack := rest }) := by
  cases o with
  | div =>
    rw [Operator.apply] at h
    split at h
    next hb =>
      have hzero : (Value.int b).equal (.int 0) = true := by
        rw [Machine.equal_int, decide_eq_true hb]
      refine Machine.perform_binary_error hs fun m => ?_
      unfold Machine.divide
      rw [hzero, if_pos rfl]
      rfl
    · cases h
  | _ => cases h

/-! ## Trees -/

def Operand.name? : Operand → Option String
  | literal .. => none
  | name s _ => some (String.ofList s)

/-- The integer that an operand stands for. -/
def Operand.value (env : String → Int) : Operand → Int
  | literal digits _ => Decimal.digitsValue digits
  | name s _ => env (String.ofList s)

/-- A name for each number. -/
def Operand.numbered (i : Nat) : Operand :=
  .name (List.replicate (i + 1) 'x') (by
    rw [isIdentifier, Bool.and_eq_true, List.all_eq_true]
    refine ⟨rfl, fun c hc => ?_⟩
    rw [List.eq_of_mem_replicate hc]
    rfl)

/-- Any integers are the values of the operands of an expression. -/
theorem exists_expression (d : Chain Int) : ∃ (c : Chain Operand) (env : String → Int),
    c.map (Operand.value env) = d ∧ c.underscored = false ∧ ∀ x ∈ c.operands, x.silent = false := by
  let e : Chain Nat := ⟨0, d.rest.zipIdx.map fun s => (s.1.1, s.2 + 1)⟩
  let env (s : String) : Int := d.operands.getD (s.length - 1) 0
  have hvalue (i : Nat) : (Operand.numbered i).value env = d.operands.getD i 0 := by
    simp [Operand.numbered, Operand.value, env]
  refine ⟨e.map .numbered, env, ?_, ?_, ?_⟩
  · obtain ⟨first, rest⟩ := d
    refine congr (congrArg Chain.mk (hvalue 0)) ?_
    refine List.ext_getElem (by simp [e, Chain.map]) fun i h h' => ?_
    simp [e, Chain.map, hvalue, Chain.operands, h']
  · rw [Chain.underscored, Chain.operands_map, List.any_map, List.any_eq_false]
    intro i _
    simp [Operand.numbered, Operand.text]
  · rw [Chain.operands_map]
    intro x hx
    obtain ⟨i, -, rfl⟩ := List.mem_map.1 hx
    simp [Operand.numbered, Operand.silent]

/-- Operators that are not regular make a difference in an expression that is compiled in full. -/
theorem exists_usual_ne {ops : List Operator} (h : ¬ Regular ops) :
    ∃ (t : Tree Operand) (env : String → Int), t.Usual ∧ t.chain.ops = ops ∧
      t.chain.underscored = false ∧ (∀ x ∈ t.chain.operands, x.silent = false) ∧
      t.chain.reading.value (Operand.value env) ≠ t.value (Operand.value env) := by
  obtain ⟨d, rfl, hne⟩ := differs_of_not_regular h
  obtain ⟨c, env, rfl, hplain, hloud⟩ := exists_expression d
  have hchain : c.usual.chain = c := chain_tree c
  rw [Chain.reading, Chain.usual, tree_map, tree_map, value_map, value_map] at hne
  refine ⟨c.usual, env, usual_usual c, ?_⟩
  rw [hchain, Chain.ops_map]
  exact ⟨rfl, hplain, hloud, hne⟩

/-- A machine has the value of a name in the slot of the name. -/
def Bound (env : String → Int) (whole : Builder) (m : Machine) (x : Operand) : Prop :=
  ∀ s ∈ x.name?, ∀ i, whole.slots.get? s = some i → m.valueOf i = .int (env s)

/-- In `k` rounds a machine gets to an address with the value on top of the stack it had, and nothing
else changed; if there is no value, it fails for a division by zero. -/
def Computes (k address : Nat) (m : Machine) : Option Int → Prop
  | some v => ReachesIn k m { m with
      pc := address, steps := m.steps + k, stack := .int v :: m.stack }
  | none => FailsIn k .divisionByZero m

/-- The instructions that a tree has if none of its operands is left out. -/
def Tree.size : Tree Operand → Nat
  | leaf _ => 1
  | node _ l r => l.size + r.size + 1

variable {env : String → Int} {whole b b' : Builder} {is : List Instr}

theorem Operand.emitting (x : Operand) : Emitting x.code := by
  intro b
  unfold Operand.code
  split
  · exact .nil b
  · cases x with
    | literal digits _ =>
      exact emitting_pushConstant (show IsNumeral (.int (Decimal.digitsValue digits)) from trivial) b
    | name s _ => exact emitting_pooled rfl id (pools_slotOf _) b

theorem Operand.keepsInts (x : Operand) : KeepsInts x.code := by
  intro b hb
  unfold Operand.code
  split
  · exact hb
  · cases x with
    | literal digits _ => exact hb.constantId _
    | name s _ => exact hb.slotOf _

theorem Tree.emitting (t : Tree Operand) : Emitting t.code := by
  induction t with
  | leaf x => exact x.emitting
  | node o l r hl hr => exact fun b => ((hl b).append (hr _)).append (emitting_emit o.opcode 0 _)

theorem Tree.keepsInts (t : Tree Operand) : KeepsInts t.code := by
  induction t with
  | leaf x => exact x.keepsInts
  | node o l r hl hr => exact fun b hb => hr _ (hl b hb)

theorem exists_reachesIn_load {s : String}
    (hrun : (do emit .load (← slotOf s) : Emit (List Instr)).run b = (is, b')) (hw : b'.Within whole)
    (hwhole : Addressable whole) (hm : Loaded whole m) (hc : CodeAt m.code b.size is)
    (hpc : m.pc = b.size) :
    ∃ i, whole.slots.get? s = some i ∧ is = [⟨.load, i⟩] ∧ ReachesIn 1 m { m with
      pc := b'.size, steps := m.steps + 1, stack := m.valueOf i :: m.stack } := by
  obtain ⟨i, b₁, hid⟩ : ∃ i b₁, (slotOf s).run b = (i, b₁) := ⟨_, _, rfl⟩
  have hsize := (pools_slotOf s b).size
  have hentry := get?_slotOf s b
  rw [hid] at hsize hentry
  cases hrun.symm.trans (run_emit_pooled .load rfl id hid)
  have hwentry := hw.slots hentry
  have hlt := hwhole.sound.distinct.lt hwentry
  have hfew := hwhole.sound.slots
  have hsmall := hwhole.small
  have hwalk := Walk.load hc hpc hm.traced (show id i < 65536 by simp only [id]; omega)
  refine ⟨i, hwentry, rfl, ?_⟩
  dsimp only at hsize ⊢
  rw [hsize]
  exact hwalk.loop

/-- An operand that is not left out pushes its value. -/
theorem Operand.computes (hloud : x.silent = false) (hrun : x.code.run b = (is, b'))
    (hints : IntPool b) (hw : b'.Within whole) (hwhole : Addressable whole) (hm : Loaded whole m)
    (hc : CodeAt m.code b.size is) (hpc : m.pc = b.size) (hbound : Bound env whole m x) :
    Computes 1 b'.size m (some (x.value env)) := by
  have hsmall := hwhole.small
  unfold Operand.code at hrun
  rw [hloud, if_neg Bool.false_ne_true] at hrun
  cases x with
  | literal digits hd =>
    have hfew := hwhole.sound.constants
    have hvalue : IsNumeral (.int (Decimal.digitsValue digits)) := trivial
    have hentry := getElem?_constantId hints (Decimal.digitsValue digits)
    obtain ⟨-, hpushes⟩ := Machine.pushes_entry hvalue hentry hrun hw (by omega)
    exact (hpushes.walk hm hc hpc).loop
  | name s hs =>
    obtain ⟨i, hslot, -, hreach⟩ := exists_reachesIn_load hrun hw hwhole hm hc hpc
    rwa [hbound _ rfl i hslot] at hreach

theorem run_operation {x y : Emit (List Instr)} (op : Opcode) {b₁ b₂ : Builder} {is₁ is₂ : List Instr}
    (hx : x.run b = (is₁, b₁)) (hy : y.run b₁ = (is₂, b₂)) :
    (do let first ← x
        let second ← y
        let last ← emit op
        return first ++ second ++ last : Emit (List Instr)).run b =
      (is₁ ++ is₂ ++ [⟨op, 0⟩], { b₂ with size := b₂.size + Instr.size ⟨op, 0⟩ }) := by
  rw [StateT.run_bind, hx]
  exact congrArg (fun r => (is₁ ++ r.1 ++ [⟨op, 0⟩],
    { r.2 with size := r.2.size + Instr.size ⟨op, 0⟩ })) hy

theorem Operator.size_instr (o : Operator) : Instr.size ⟨o.opcode, 0⟩ = 1 := by
  cases o <;> rfl

theorem Operator.opcode_ne_finish (o : Operator) : o.opcode ≠ .finish := by
  cases o <;> decide

section Operation

variable {a : Nat} {u w : Int} (hc : CodeAt m.code a [⟨o.opcode, 0⟩]) (hpc : m.pc = a)
  (ht : m.traced = false) (hs : m.stack = .int w :: .int u :: rest)

include hc hpc ht hs

theorem reachesIn_operator {v : Int} (h : o.apply u w = some v) :
    ReachesIn 1 m { m with pc := (a + 1 : Nat), steps := m.steps + 1, stack := .int v :: rest } := by
  have hx := perform_operator (show m.counted.stack = .int w :: .int u :: rest from hs) h
  have hnext : m.pc + 1 = ((a + 1 : Nat) : Int) := by omega
  have hreach := ReachesIn.instr hc hpc ht o.opcode_ne_finish hx
  rw [← hnext]
  exact hreach

theorem failsIn_operator (h : o.apply u w = none) : FailsIn 1 .divisionByZero m :=
  .instr hc hpc ht (perform_operator_none (show m.counted.stack = .int w :: .int u :: rest from hs) h)

end Operation

/-- Two values that are computed one after the other, and an operator that takes both. -/
theorem Computes.operation {k k' a a' : Nat} {x y : Option Int} (hx : Computes k a m x)
    (hy : ∀ u, Computes k' a'
      { m with pc := a, steps := m.steps + k, stack := .int u :: m.stack } y)
    (hc : CodeAt m.code a' [⟨o.opcode, 0⟩]) (ht : m.traced = false) :
    Computes (k + k' + 1) (a' + 1) m (o.on x y) := by
  cases x with
  | none => exact (FailsIn.more hx k').more 1
  | some u =>
    have hy := hy u
    cases y with
    | none => exact (ReachesIn.fails hx hy).more 1
    | some w =>
      have hsides := ReachesIn.trans hx hy
      show Computes _ _ m (o.apply u w)
      cases hv : o.apply u w with
      | none => exact hsides.fails (failsIn_operator hc rfl ht rfl hv)
      | some v =>
        have hstep := reachesIn_operator (m := { m with
          pc := a', steps := m.steps + k + k', stack := .int w :: .int u :: m.stack })
          hc rfl ht rfl hv
        have hall := hsides.trans hstep
        rw [Nat.add_assoc m.steps, Nat.add_assoc m.steps] at hall
        exact hall

/-- The code of a tree pushes its value. -/
theorem Tree.computes (t : Tree Operand) (hloud : ∀ x ∈ t.chain.operands, x.silent = false)
    (hrun : t.code.run b = (is, b')) (hints : IntPool b) (hw : b'.Within whole)
    (hwhole : Addressable whole) (hm : Loaded whole m) (hc : CodeAt m.code b.size is)
    (hpc : m.pc = b.size) (hbound : ∀ x ∈ t.chain.operands, Bound env whole m x) :
    Computes t.size b'.size m (t.value (Operand.value env)) := by
  induction t generalizing b b' is m with
  | leaf x =>
    exact Operand.computes (hloud x List.mem_cons_self) hrun hints hw hwhole hm hc hpc
      (hbound x List.mem_cons_self)
  | node o l r ihl ihr =>
    simp only [Tree.chain, Chain.operands_join, List.mem_append] at hloud hbound
    -- The code of the sides, one after the other, and the operator.
    obtain ⟨is₁, b₁, hx₁⟩ : ∃ is b₁, l.code.run b = (is, b₁) := ⟨_, _, rfl⟩
    obtain ⟨is₂, b₂, hx₂⟩ : ∃ is b₂, r.code.run b₁ = (is, b₂) := ⟨_, _, rfl⟩
    cases hrun.symm.trans (run_operation o.opcode hx₁ hx₂)
    have hfirst := l.emitting b
    have hsecond := r.emitting b₁
    have hints₁ := l.keepsInts b hints
    rw [hx₁] at hfirst hints₁
    rw [hx₂] at hsecond
    have hlast : Emits b₂ [⟨o.opcode, 0⟩] { b₂ with size := b₂.size + Instr.size ⟨o.opcode, 0⟩ } :=
      emitting_emit o.opcode 0 b₂
    have hw₂ : b₂.Within whole := hlast.within.trans hw
    have hc₂ : CodeAt m.code b₁.size is₂ := by
      rw [hfirst.size]
      exact hc.left.right
    have hc₃ : CodeAt m.code b₂.size [⟨o.opcode, 0⟩] := by
      rw [(hfirst.append hsecond).size]
      exact hc.right
    rw [o.size_instr, Tree.size, Tree.value]
    have hleft := ihl (fun x hx => hloud x (.inl hx)) hx₁ hints (hsecond.within.trans hw₂) hm
      hc.left.left hpc fun x hx => hbound x (.inl hx)
    refine hleft.operation (fun u => ?_) hc₃ hm.traced
    exact ihr (fun x hx => hloud x (.inr hx)) hx₂ hints₁ hw₂ { hm with } hc₂ rfl
      fun x hx => hbound x (.inr hx)

theorem size_tree (t : Tree Operand) : t.size = 2 * t.chain.ops.length + 1 := by
  induction t with
  | leaf x => rfl
  | node o l r hl hr =>
    rw [Tree.size, Tree.chain, Chain.ops_join, List.length_append, List.length_cons]
    omega

/-! ## Expressions -/

/-- **What a compiled expression computes.** Take any expression of integers and names with operators
between them, compiled anywhere in a program whose constants so far are integers and whose code can be
addressed, and a machine that comes to its code with the values of the names in their slots, and with
anything on its stack.

The usual rules give the expression one tree. With an operator and an underscore in it, the code is that of
one name, the text of the whole expression, and pushes what is in the slot of that name. Otherwise it is
the code of the tree that the expression is cut into. If no operand is left out of it, the machine goes
through it in a round for each operand and operator, and leaves the stack as it was with the value of that
tree on top, or it fails for a division by zero. This value is the usual one if the operators are regular;
if they are not, it is another one for some expression with the same operators. -/
theorem compiled_expression (c : Chain Operand) (env : String → Int) {whole b b' : Builder}
    {is : List Instr} {m : Machine} (hrun : (compileExpr c.text).run b = (is, b'))
    (hints : IntPool b) (hw : b'.Within whole) (hwhole : Addressable whole) (hm : Loaded whole m)
    (hc : CodeAt m.code b.size is) (hpc : m.pc = b.size)
    (hbound : ∀ x ∈ c.operands, Bound env whole m x) :
    (∃ t : Tree Operand, (t.Usual ∧ t.chain = c) ∧ ∀ t' : Tree Operand, t'.Usual ∧ t'.chain = c → t' = t) ∧
    (c.ops ≠ [] → c.underscored = true →
      ∃ i, whole.slots.get? (String.ofList c.text) = some i ∧ is = [⟨.load, i⟩] ∧
        ReachesIn 1 m { m with
          pc := b'.size, steps := m.steps + 1, stack := m.valueOf i :: m.stack }) ∧
    (c.ops = [] ∨ c.underscored = false →
      c.reading.code.run b = (is, b') ∧
      ((∀ x ∈ c.operands, x.silent = false) →
        Computes (2 * c.ops.length + 1) b'.size m (c.reading.value (Operand.value env)))) ∧
    (Regular c.ops → ∀ t : Tree Operand, t.Usual → t.chain = c →
      c.reading.value (Operand.value env) = t.value (Operand.value env)) ∧
    (¬ Regular c.ops → ∃ (t : Tree Operand) (env' : String → Int), t.Usual ∧ t.chain.ops = c.ops ∧
      t.chain.underscored = false ∧ (∀ x ∈ t.chain.operands, x.silent = false) ∧
      t.chain.reading.value (Operand.value env') ≠ t.value (Operand.value env')) := by
  refine ⟨⟨c.usual, ⟨usual_usual c, chain_tree c⟩, ?_⟩, ?_, ?_, ?_, exists_usual_ne⟩
  · rintro t ⟨ht, rfl⟩
    exact eq_usual ht
  · intro hops hline
    obtain ⟨o, ops, hcons⟩ := List.exists_cons_of_ne_nil hops
    have hcut : c.ops = [] ++ o :: ops := hcons
    obtain ⟨l, r, rfl, -, -⟩ := Chain.exists_join hcut
    rw [compileExpr_underscored (trim_text _) hline] at hrun
    exact exists_reachesIn_load hrun hw hwhole hm hc hpc
  · intro hplain
    rw [compileExpr_reading hplain (trim_text c)] at hrun
    refine ⟨hrun, fun hloud => ?_⟩
    have hchain : c.reading.chain = c := chain_tree c
    have hcomputes := Tree.computes c.reading (by rwa [hchain]) hrun hints hw hwhole hm hc hpc
      (by rwa [hchain])
    rwa [size_tree, hchain] at hcomputes
  · rintro hregular t ht rfl
    rw [value_reading hregular, ← eq_usual ht]

/-- `7 / y * 2 - x + 1`. -/
def mixed : Chain Operand where
  first := .literal ['7'] rfl
  rest := [(.div, .name ['y'] rfl), (.mul, .literal ['2'] rfl), (.sub, .name ['x'] rfl),
    (.add, .literal ['1'] rfl)]

/-- A machine that has the code of `mixed`, both names bound, and a value on its stack. -/
def mixedMachine : Machine :=
  { Machine.start .plain (compileExpression (String.ofList mixed.text)) 0 100 false with
    «variables» := [(0, .int 2), (1, .int 5)], stack := [.text "rapat"] }

def mixedEnv (s : String) : Int := if s = "y" then 2 else 5

theorem bound_mixed : ∀ x ∈ mixed.operands,
    Bound mixedEnv ((compileExpr mixed.text).run {}).2 mixedMachine x := by
  have hy : ((compileExpr mixed.text).run {}).2.slots.get? "y" = some 0 := by decide +kernel
  have hx : ((compileExpr mixed.text).run {}).2.slots.get? "x" = some 1 := by decide +kernel
  intro x hmem s hs i hi
  simp only [Chain.operands, mixed, List.map_cons, List.map_nil, List.mem_cons, List.not_mem_nil,
    or_false] at hmem
  rcases hmem with rfl | rfl | rfl | rfl | rfl
  · cases hs
  · cases hs
    cases hy.symm.trans hi
    rfl
  · cases hs
  · cases hs
    cases hx.symm.trans hi
    rfl
  · cases hs

theorem compiled_expression_mixed :
    String.ofList mixed.text = "7 / y * 2 - x + 1" ∧ Regular mixed.ops ∧
    mixed.usual.value (Operand.value mixedEnv) = some 2 ∧
    ReachesIn 9 mixedMachine { mixedMachine with
      pc := 19, steps := 9, stack := [.int 2, .text "rapat"] } := by
  have hints : IntPool {} := by
    intro v hv
    cases hv
  have hwhole : Addressable ((compileExpr mixed.text).run {}).2 :=
    ⟨(emitting_compileExpr mixed.text {}).sound sound_empty, by decide +kernel⟩
  have hcompile : (compileExpr mixed.text).run {} =
    (((compileExpr mixed.text).run {}).1, ((compileExpr mixed.text).run {}).2) := rfl
  have hcode : CodeAt mixedMachine.code 0 ((compileExpr mixed.text).run {}).1 :=
    ⟨[], [], by rw [List.nil_append, List.append_nil]; rfl, rfl⟩
  have hregular : Regular mixed.ops := by decide
  have husual : mixed.usual.value (Operand.value mixedEnv) = some 2 := by decide +kernel
  obtain ⟨-, -, hrun, hvalue, -⟩ := compiled_expression mixed mixedEnv hcompile hints (.refl _) hwhole
    ⟨rfl, rfl, rfl⟩ hcode rfl bound_mixed
  have hcomputes := (hrun (.inr (by decide +kernel))).2 (by decide +kernel)
  have hsize : ((compileExpr mixed.text).run {}).2.size = 19 := by decide +kernel
  rw [hvalue hregular mixed.usual (usual_usual _) (chain_tree _), husual, hsize] at hcomputes
  exact ⟨by decide +kernel, hregular, husual, hcomputes⟩

/-- Two differences are not taken from the left. -/
theorem differences_not_from_left :
    let c : Chain Operand :=
      ⟨.literal ['1', '0'] rfl, [(.sub, .literal ['3'] rfl), (.sub, .literal ['2'] rfl)]⟩
    String.ofList c.text = "10 - 3 - 2" ∧ c.usual.value (Operand.value fun _ => 0) = some 5 ∧
    (Machine.run (.float 0.0) false (Machine.start .plain
      (compile ⟨[.report 1 (String.ofList c.text)]⟩) 0 1000 false)).2.printed = #["9\n"] := by
  intro c
  exact ⟨by decide +kernel, by decide +kernel, by decide +kernel⟩

end Birokrasi.Calculation
