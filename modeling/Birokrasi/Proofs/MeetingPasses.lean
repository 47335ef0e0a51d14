import Birokrasi.Proofs.CompilerCorrectness
import Birokrasi.Proofs.Walks
import Birokrasi.Proofs.WholeDoubles

/-!
# How often meetings are held

The interpreter asks for the count of a meeting before its body, and holds a meeting of a negative count
not at all. The machine pushes the count, goes through the body and only then looks whether another pass
is due: it holds every meeting at least once (`meeting_passes`). The two agree exactly on the counts from
one on. Otherwise the machine keeps to its part: the counter is gone from the stack when a meeting is
over, in meetings inside meetings too, and also if the count has been pooled as a double.
-/

namespace Birokrasi.Structured

open Birokrasi.Bytecode
open Birokrasi.Machine (CodeAt Walk Loaded Pushes perform effect)
open Birokrasi.Text

/-! ## Counters -/

/-- A value that counts `k`: the integer, or the double with that value if it is not too large. -/
def Counter (v : Value) (k : Int) : Prop :=
  v = .int k ∨ ∃ x, v = .float x ∧ Decimal.Whole x k ∧ k ≤ 2 ^ 53

section Counters

variable {v : Value} {k n : Int}

theorem compare_swap_beq_gt (k : Int) : ((compare 1 k).swap == .gt) = decide (1 < k) := by
  rw [Bool.eq_iff_iff, beq_iff_eq, decide_eq_true_eq, Ordering.swap_eq_gt]
  exact Int.compare_eq_lt

theorem Counter.greater (h : Counter v k) : v.greater (.int 1) = .ok (decide (1 < k)) := by
  rcases h with rfl | ⟨x, rfl, hwhole, -⟩
  · exact Machine.greater_int k 1
  · have hcmp : (Number.float x).compare? (.int 1) = some (compare 1 k).swap := by
      show (Decimal.compareInt? 1 x).map Ordering.swap = _
      rw [hwhole.compareInt?]
      rfl
    rw [← compare_swap_beq_gt]
    simp [Value.greater, Value.ordered, Value.number?, Value.Comparison.onNumbers, hcmp,
      Value.Comparison.holds]

theorem Counter.sub (h : Counter v k) (hk : 1 < k) :
    ∃ left, v.sub (.int 1) = .ok left ∧ Counter left (k - 1) := by
  rcases h with rfl | ⟨x, rfl, hwhole, hle⟩
  · exact ⟨_, rfl, .inl rfl⟩
  · obtain ⟨one, hone, -⟩ := Decimal.exists_ofInt? (n := 1) (by decide)
    refine ⟨.float (x - one), ?_, .inr ⟨_, rfl, hwhole.sub_one hone hk hle, by omega⟩⟩
    have hfloat : Number.floatOfInt 1 = .ok one := by
      unfold Number.floatOfInt
      rw [hone]
    have hsub : Number.sub (.float x) (.int 1) = .ok (.float (x - one)) := by
      show (Number.floatOfInt 1 >>= fun y => pure (Number.float (x - y))) = _
      rw [hfloat]
      rfl
    show (Number.sub (.float x) (.int 1) >>= fun r => pure (Value.ofNumber r)) = _
    rw [hsub]
    rfl

theorem counter_of_same {w : Value} (hw : IsNumeral w) (h : w.same (.int n)) (hn : n ≤ 2 ^ 53) :
    Counter w n := by
  cases w with
  | int k => exact .inl (by rw [eq_of_same_int h])
  | float x =>
    refine .inr ⟨x, rfl, ?_, hn⟩
    have heq : (Decimal.compareInt? n x).map Ordering.swap = some .eq := by
      simpa [Value.same, Value.equalAs, Value.number?, Number.equal, Number.compare?] using h
    obtain ⟨o, ho, hswap⟩ := Option.map_eq_some_iff.1 heq
    rw [Ordering.swap_eq_eq] at hswap
    rw [Decimal.Whole, ho, hswap]
  | _ => cases hw

end Counters

/-! ## Literals -/

/-- Whether a text is compiled to a single value. -/
def isLiteral (text : List Char) : Bool :=
  isQuotedText (trim text) || (Bytecode.numeral? (trim text)).isSome

variable {whole b b' : Builder} {is js : List Instr}

theorem exists_pushes {text : List Char} (h : isLiteral text)
    (hrun : (compileExpr text).run b = (is, b')) (hwhole : Addressable whole)
    (hw : b'.Within whole) : ∃ v, Pushes whole b b' is v := by
  have hsmall := hwhole.small
  have hconstants := hwhole.sound.constants
  have hstrings := hwhole.sound.strings
  by_cases hq : isQuotedText (trim text)
  · rw [compileExpr_of_quoted hq] at hrun
    exact ⟨_, Machine.pushes_text hrun hw (by omega)⟩
  · rw [Bool.not_eq_true] at hq
    obtain ⟨v, hv⟩ : ∃ v, Bytecode.numeral? (trim text) = some v := by
      simpa [isLiteral, hq, Option.isSome_iff_exists] using h
    rw [compileExpr_of_numeral hq hv] at hrun
    obtain ⟨w, -, hpushes, -⟩ :=
      Machine.exists_pushes_constant (isNumeral_of_numeral? hv) hrun hw (by omega)
    exact ⟨w, hpushes⟩

/-- A count that can be counted down whatever value of the pool is taken for it: a double is exact as
far as this bound. -/
def Countable (pool : List Value) (n : Int) : Prop := n ≤ 2 ^ 53 ∨ ∀ v ∈ pool, ∃ k, v = .int k

/-- A count pushes a counter, whatever has been pooled before it. -/
theorem exists_pushes_counter {text : List Char} {n : Int} (h : isIntegerText (trim text))
    (hread : Decimal.readInt (trim text) = .ok n) (hn : Countable whole.constants n)
    (hrun : (compileExpr text).run b = (is, b')) (hwhole : Addressable whole)
    (hw : b'.Within whole) : ∃ v, Counter v n ∧ Pushes whole b b' is v := by
  have hsmall := hwhole.small
  have hconstants := hwhole.sound.constants
  rw [(readable_of_readInt h hread).2] at hrun
  obtain ⟨w, hmem, hpushes, hequal⟩ :=
    Machine.exists_pushes_constant (v := .int n) trivial hrun hw (by omega)
  refine ⟨w, ?_, hpushes⟩
  rcases hequal with rfl | hsame
  · exact .inl rfl
  · rcases hn with hn | hints
    · exact counter_of_same (hwhole.sound.numerals w hmem) hsame hn
    · obtain ⟨k, rfl⟩ := hints w hmem
      exact .inl (by rw [eq_of_same_int hsame])

/-! ## Agendas -/

/-- Reports of literals, and meetings of them, with counts of any size and sign. -/
inductive Stmt.Agenda (pool : List Value) : Stmt → Prop
  | report {line : Nat} {expr : String} : isLiteral expr.toList → Agenda pool (.report line expr)
  | meeting {line : Nat} {count : String} {n : Int} {body : List Stmt} :
      isIntegerText (trim count.toList) → Decimal.readInt (trim count.toList) = .ok n →
      Countable pool n → (∀ s ∈ body, Agenda pool s) → Agenda pool (.meeting line count body)

/-- How often the machine goes through the body of a meeting. -/
def passes (count : String) : Nat :=
  (max ((Decimal.readInt (trim count.toList)).toOption.getD 0) 1).toNat

mutual

/-- The addresses at which the machine executes an instruction when it goes through the code of a
statement that is compiled after `b`. -/
def visits (b : Builder) : Stmt → List Nat
  | .report _ expr => [b.size, ((compileExpr expr.toList).run b).2.size]
  | .meeting _ count body =>
    let inside := ((compileExpr count.toList).run b).2
    let back := ((compileBody body).run inside).2.size
    b.size :: (List.replicate (passes count) (bodyVisits inside body ++ [back])).flatten
  | _ => []

def bodyVisits (b : Builder) : List Stmt → List Nat
  | [] => []
  | s :: rest => visits b s ++ bodyVisits ((compileStmt s).run b).2 rest

end

theorem visits_meeting {line : Nat} {count : String} {n : Int} {body : List Stmt}
    (hread : Decimal.readInt (trim count.toList) = .ok n) :
    visits b (.meeting line count body) =
      b.size :: (List.replicate (max n 1).toNat
        (bodyVisits ((compileExpr count.toList).run b).2 body ++
          [((compileBody body).run ((compileExpr count.toList).run b).2).2.size])).flatten := by
  rw [visits, passes, hread]
  rfl

/-- The code of a step of compiling leads through these addresses, and leaves all of a machine as it was
but the place, the steps and the output. -/
def Touring (whole : Builder) (comp : Emit (List Instr)) (as : Builder → List Nat) : Prop :=
  ∀ ⦃b b' : Builder⦄ ⦃is : List Instr⦄ ⦃m : Machine⦄, comp.run b = (is, b') → b'.Within whole →
    Loaded whole m → CodeAt m.code b.size is → m.pc = b.size → ∃ printed,
      Walk (as b) m { m with pc := b'.size, steps := m.steps + (as b).length, printed }

theorem touring_report {line : Nat} {expr : String} (h : isLiteral expr.toList)
    (hwhole : Addressable whole) :
    Touring whole (compileStmt (.report line expr)) (visits · (.report line expr)) := by
  intro b b' is m hrun hw hm hc hpc
  obtain ⟨is₁, b₁, hexpr⟩ : ∃ is b₁, (compileExpr expr.toList).run b = (is, b₁) := ⟨_, _, rfl⟩
  rw [compileStmt] at hrun
  cases hrun.symm.trans (run_append hexpr rfl)
  have hemit := emitting_compileExpr expr.toList b
  have hlast : Emits b₁ [⟨.print, 0⟩] { b₁ with size := b₁.size + 1 } := emitting_emit .print 0 b₁
  rw [hexpr] at hemit
  obtain ⟨v, hpushes⟩ := exists_pushes h hexpr hwhole (hlast.within.trans hw)
  have hcp : CodeAt m.code b₁.size [⟨.print, 0⟩] := by
    rw [hemit.size]
    exact hc.right
  have hvisits : visits b (.report line expr) = [b.size] ++ [b₁.size] := by
    rw [visits, hexpr]
    rfl
  refine ⟨m.printed.push (v.shown ++ "\n"), ?_⟩
  dsimp only
  rw [hvisits]
  refine (hpushes.walk hm hc.left hpc).append ?_
  exact Walk.instr hcp rfl hm.traced (show Opcode.print ≠ .finish by decide) (Machine.perform_print rfl)

theorem touring_body {body : List Stmt}
    (h : ∀ s ∈ body, Touring whole (compileStmt s) (visits · s)) :
    Touring whole (compileBody body) (bodyVisits · body) := by
  induction body with
  | nil =>
    intro b b' is m hrun hw hm hc hpc
    rw [compileBody] at hrun
    cases hrun
    refine ⟨m.printed, ?_⟩
    dsimp only
    rw [bodyVisits, ← hpc]
    exact .nil m
  | cons s rest ih =>
    intro b b' is m hrun hw hm hc hpc
    obtain ⟨is₁, b₁, hfirst⟩ : ∃ is b₁, (compileStmt s).run b = (is, b₁) := ⟨_, _, rfl⟩
    obtain ⟨is₂, b₂, hsecond⟩ : ∃ is b₂, (compileBody rest).run b₁ = (is, b₂) := ⟨_, _, rfl⟩
    rw [compileBody] at hrun
    cases hrun.symm.trans (run_append hfirst hsecond)
    have hemit := emitting_compileStmt s b
    have hrest := emitting_compileBody rest b₁
    rw [hfirst] at hemit
    rw [hsecond] at hrest
    have hc₂ : CodeAt m.code b₁.size is₂ := by
      rw [hemit.size]
      exact hc.right
    obtain ⟨printed, hwalk⟩ :=
      h s List.mem_cons_self hfirst (hrest.within.trans hw) hm hc.left hpc
    obtain ⟨printed', hwalk'⟩ :=
      ih (fun t ht => h t (List.mem_cons_of_mem s ht)) hsecond hw
        (m := { m with pc := b₁.size, steps := m.steps + (visits b s).length, printed })
        { hm with } hc₂ rfl
    refine ⟨printed', ?_⟩
    dsimp only at hwalk' ⊢
    rw [bodyVisits, hfirst, List.length_append, ← Nat.add_assoc]
    exact hwalk.append hwalk'

/-- A meeting goes through its body until its counter is used up, but once at least, and takes the
counter away. -/
theorem walk_passes {comp : Emit (List Instr)} {as : Builder → List Nat}
    (hcomp : Touring whole comp as) (hrun : comp.run b = (is, b')) (hw : b'.Within whole)
    (hpos : b.size ≠ 0) (hsmall : b.size < 65536) (again : Nat) {v : Value} {k : Int}
    {rest : List Value} {m : Machine} (hv : Counter v k) (hk : (max k 1).toNat = again + 1)
    (hm : Loaded whole m) (hc : CodeAt m.code b.size is)
    (hcm : CodeAt m.code b'.size [⟨.meeting, b.size⟩]) (hpc : m.pc = b.size)
    (hstack : m.stack = v :: rest) :
    ∃ printed, Walk (List.replicate (again + 1) (as b ++ [b'.size])).flatten m { m with
      pc := (b'.size + 3 : Nat)
      steps := m.steps + (List.replicate (again + 1) (as b ++ [b'.size])).flatten.length
      stack := rest
      printed } := by
  induction again generalizing v k m with
  | zero =>
    obtain ⟨printed, hwalk⟩ := hcomp hrun hw hm hc hpc
    have hmore : v.greater (.int 1) = .ok false := by
      rw [hv.greater, decide_eq_false (by omega)]
    refine ⟨printed, ?_⟩
    rw [List.replicate_one, List.flatten_singleton, List.length_append, List.length_singleton,
      ← Nat.add_assoc]
    exact hwalk.append (.meet_over hcm rfl hm.traced hstack hmore)
  | succ again ih =>
    obtain ⟨printed, hwalk⟩ := hcomp hrun hw hm hc hpc
    have hlarge : 1 < k := by omega
    have hmore : v.greater (.int 1) = .ok true := by
      rw [hv.greater, decide_eq_true hlarge]
    obtain ⟨left, hleft, hcounter⟩ := hv.sub hlarge
    obtain ⟨printed', hrest⟩ := ih hcounter (by omega) (m := { m with
      pc := b.size, steps := m.steps + (as b).length + 1, stack := left :: rest, printed })
      { hm with } hc hcm rfl rfl
    refine ⟨printed', ?_⟩
    rw [List.replicate_succ, List.flatten_cons, List.length_append, List.length_append,
      List.length_singleton, ← Nat.add_assoc, ← Nat.add_assoc]
    exact (hwalk.append (.meet_again hcm rfl hm.traced hpos hsmall hstack hmore hleft)).append hrest

theorem touring_meeting {line : Nat} {count : String} {n : Int} {body : List Stmt}
    (hcount : isIntegerText (trim count.toList))
    (hread : Decimal.readInt (trim count.toList) = .ok n) (hn : Countable whole.constants n)
    (hwhole : Addressable whole) (hbody : Touring whole (compileBody body) (bodyVisits · body)) :
    Touring whole (compileStmt (.meeting line count body)) (visits · (.meeting line count body)) := by
  intro b b' is m hrun hw hm hc hpc
  obtain ⟨is₁, b₁, hexpr⟩ : ∃ is b₁, (compileExpr count.toList).run b = (is, b₁) := ⟨_, _, rfl⟩
  obtain ⟨is₂, b₂, hinside⟩ : ∃ is b₂, (compileBody body).run b₁ = (is, b₂) := ⟨_, _, rfl⟩
  have hfirst := emitting_compileExpr count.toList b
  have hinner := emitting_compileBody body b₁
  rw [hexpr] at hfirst
  rw [hinside] at hinner
  have hpos : b₁.size ≠ 0 := size_ne_zero_of_push ((readable_of_readInt hcount hread).2 ▸ hexpr)
  cases hrun.symm.trans (run_compile_meeting hexpr hinside hpos)
  have hw₂ : b₂.Within whole := (Emits.instr _ (.refl b₂) (size_meeting hpos)).within.trans hw
  have hw₁ : b₁.Within whole := hinner.within.trans hw₂
  obtain ⟨v, hcounter, hpushes⟩ := exists_pushes_counter hcount hread hn hexpr hwhole hw₁
  have hcb : CodeAt m.code b₁.size is₂ := by
    rw [hfirst.size]
    exact hc.left.right
  have hcm : CodeAt m.code b₂.size [⟨.meeting, b₁.size⟩] := by
    rw [(hfirst.append hinner).size]
    exact hc.right
  obtain ⟨again, hagain⟩ : ∃ again, (max n 1).toNat = again + 1 := ⟨(max n 1).toNat - 1, by omega⟩
  obtain ⟨printed, hwalk⟩ := walk_passes hbody hinside hw₂ hpos
    (Nat.lt_succ_of_le (Nat.le_trans hw₁.size hwhole.small)) again hcounter hagain
    (m := { m with pc := b₁.size, steps := m.steps + 1, stack := v :: m.stack })
    { hm with } hcb hcm rfl rfl
  have hvisits : visits b (.meeting line count body) =
      [b.size] ++ (List.replicate (again + 1) (bodyVisits b₁ body ++ [b₂.size])).flatten := by
    rw [visits_meeting hread, hexpr, hinside, hagain]
    rfl
  refine ⟨printed, ?_⟩
  dsimp only at hwalk ⊢
  rw [hvisits, List.length_append, List.length_singleton, ← Nat.add_assoc]
  exact (hpushes.walk hm hc.left.left hpc).append hwalk

theorem Stmt.Agenda.touring {s : Stmt} (h : s.Agenda whole.constants) (hwhole : Addressable whole) :
    Touring whole (compileStmt s) (visits · s) := by
  induction h with
  | report hlit => exact touring_report hlit hwhole
  | meeting hcount hread hn _ ih =>
    exact touring_meeting hcount hread hn hwhole (touring_body ih)

/-! ## Programs -/

theorem run_compileBody_append {first second : List Stmt} {b₁ b₂ : Builder}
    (h : (compileBody first).run b = (is, b₁)) (h' : (compileBody second).run b₁ = (js, b₂)) :
    (compileBody (first ++ second)).run b = (is ++ js, b₂) := by
  induction first generalizing b is with
  | nil =>
    rw [compileBody] at h
    cases h
    exact h'
  | cons s rest ih =>
    obtain ⟨is₁, b', hs⟩ : ∃ is₁ b', (compileStmt s).run b = (is₁, b') := ⟨_, _, rfl⟩
    obtain ⟨is₂, b'', hrest⟩ : ∃ is₂ b'', (compileBody rest).run b' = (is₂, b'') := ⟨_, _, rfl⟩
    rw [compileBody] at h
    cases h.symm.trans (run_append hs hrest)
    rw [List.cons_append, compileBody, List.append_assoc]
    exact run_append hs (ih hrest)

theorem addressable_instructions {p : Program} (h : (compile p).code.length ≤ 65535) :
    Addressable (instructions p).2 := by
  refine ⟨sound_instructions p, ?_⟩
  rwa [size_instructions]

/-- A statement among others is a part of the code of the program. -/
theorem touring_part {p : Program} {before after : List Stmt} {s : Stmt} {as : Builder → List Nat}
    {m : Machine} (hp : p.body = before ++ s :: after)
    (h : Touring (instructions p).2 (compileStmt s) as) (hm : m.Holds (compile p))
    (hb : ((compileBody before).run {}).2 = b) (hpc : m.pc = b.size) :
    ∃ printed, Walk (as b) m { m with
      pc := ((compileStmt s).run b).2.size, steps := m.steps + (as b).length, printed } := by
  obtain ⟨is₁, b₁, hbefore⟩ : ∃ is b₁, (compileBody before).run {} = (is, b₁) := ⟨_, _, rfl⟩
  obtain ⟨is₂, b₂, hs⟩ : ∃ is b₂, (compileStmt s).run b₁ = (is, b₂) := ⟨_, _, rfl⟩
  obtain ⟨is₃, b₃, hafter⟩ : ∃ is b₃, (compileBody after).run b₂ = (is, b₃) := ⟨_, _, rfl⟩
  have hfirst := emitting_compileBody before {}
  have hrest := emitting_compileBody after b₂
  rw [hbefore] at hb hfirst
  rw [hafter] at hrest
  subst hb
  have hbody : (compileBody p.body).run {} = (is₁ ++ (is₂ ++ is₃), b₃) := by
    rw [hp]
    refine run_compileBody_append hbefore ?_
    rw [compileBody]
    exact run_append hs hafter
  have hall : instructions p = (is₁ ++ (is₂ ++ is₃) ++ [⟨.finish, 0⟩], { b₃ with size := b₃.size + 1 }) :=
    run_append hbody rfl
  have hw : b₂.Within (instructions p).2 := by
    rw [hall]
    exact hrest.within.trans (emitting_emit .finish 0 b₃).within
  have hc : CodeAt m.code b₁.size is₂ := by
    have hzero : CodeAt m.code 0 (is₁ ++ (is₂ ++ is₃) ++ [⟨.finish, 0⟩]) := by
      refine ⟨[], [], ?_, rfl⟩
      rw [hm.code, compile, hall]
      simp [Builder.image]
    rw [hfirst.size]
    exact hzero.left.right.left
  dsimp only
  rw [hs]
  exact h hs hw hm.toHasPools hc hpc

theorem evaluateFloat_of_readInt {count : String} {n : Int} (hcount : isIntegerText (trim count.toList))
    (hread : Decimal.readInt (trim count.toList) = .ok n) :
    evaluateFloat count = Run.ofExcept (ofFault (Number.floatOfInt n)) := by
  have hget : evaluate count = pure (.int n) := by
    unfold evaluate
    simp only [(readable_of_readInt hcount hread).1, Run.ofExcept]
    rfl
  rw [evaluateFloat, hget, pure_bind]
  rfl

/-- The interpreter makes a double of the count, and then holds the meeting as often as the count says. -/
theorem execute_meeting {line : Nat} {count : String} {n : Int} {body : List Stmt}
    (hcount : isIntegerText (trim count.toList))
    (hread : Decimal.readInt (trim count.toList) = .ok n) (hn : n ≤ 2 ^ 53) (depth : Nat) :
    execute (depth + 1) (.meeting line count body) = (do
      trace line "RapatLoop"
      tick
      let _ ← Run.ofExcept (ofFault (Number.floatOfInt n))
      times (body.forM (execute depth)) (max n 0).toNat) := by
  have htimes : (max n 0).toNat = n.toNat := by omega
  rw [execute, htimes]
  simp only [evaluateFloat_of_readInt hcount hread]
  cases hx : Number.floatOfInt n with
  | error e => rfl
  | ok x =>
    obtain ⟨k, hk, hsame⟩ := Number.toNat_of_floatOfInt hn hx
    have hint : Run.ofExcept (ofFault (Number.intOfFloat x)) = pure k := by
      rw [hk]
      rfl
    have hfloat : Run.ofExcept (ofFault (.ok x)) = pure x := rfl
    simp only [hfloat, hint, pure_bind, hsame]
    rfl

/-- **Every meeting is held once at least.** In any program whose code can be addressed, take a meeting
with an integer for its count, of reports of literals and of such meetings. The interpreter makes a
double of the count, which a count of this size has, and goes through the body as often as the count says,
and not at all if it is negative. A machine that comes to the code of the meeting, with anything on its
stack, visits its addresses in just this order: those of the body and of the way back, once at least and
otherwise as often as the count says. It goes on behind the meeting with the stack it came with; only its
place, its steps and its output are others. So the two agree on the counts from one on, and on no
others. -/
theorem meeting_passes (p : Program) (before after body : List Stmt) (line : Nat) (count : String)
    (n : Int) (hp : p.body = before ++ .meeting line count body :: after)
    (hcount : isIntegerText (trim count.toList))
    (hread : Decimal.readInt (trim count.toList) = .ok n)
    (hn : Countable (compile p).constants n) (hbody : ∀ s ∈ body, s.Agenda (compile p).constants)
    (hsmall : (compile p).code.length ≤ 65535) :
    (n ≤ 2 ^ 53 → ∀ depth, execute (depth + 1) (.meeting line count body) = do
      trace line "RapatLoop"
      tick
      let _ ← Run.ofExcept (ofFault (Number.floatOfInt n))
      times (body.forM (execute depth)) (max n 0).toNat) ∧
    (n.natAbs ≤ 2 ^ 53 → ∃ x, Number.floatOfInt n = .ok x) ∧
    (∀ m : Machine, m.Holds (compile p) →
      let outside := ((compileBody before).run {}).2
      let inside := ((compileExpr count.toList).run outside).2
      let back := ((compileBody body).run inside).2.size
      let as := outside.size ::
        (List.replicate (max n 1).toNat (bodyVisits inside body ++ [back])).flatten
      m.pc = outside.size → ∃ printed,
        let m' := { m with pc := (back + 3 : Nat), steps := m.steps + as.length, printed }
        ∀ rounds,
          Machine.loop (.float 0.0) (as.length + rounds) m = Machine.loop (.float 0.0) rounds m' ∧
          m.visited (as.length + rounds) = as.map Int.ofNat ++ m'.visited rounds) ∧
    ((max n 0).toNat = (max n 1).toNat ↔ 1 ≤ n) := by
  refine ⟨execute_meeting hcount hread, ?_, ?_, by omega⟩
  · intro hexact
    obtain ⟨x, hx, -⟩ := Number.exists_floatOfInt hexact
    exact ⟨x, hx⟩
  · intro m hm outside inside back as hpc
    have hwhole := addressable_instructions hsmall
    have htour : Touring (instructions p).2 (compileStmt (.meeting line count body)) _ :=
      Stmt.Agenda.touring (.meeting hcount hread hn hbody) hwhole
    obtain ⟨printed, hwalk⟩ := touring_part hp htour hm rfl hpc
    have hpasses : visits outside (.meeting line count body) = as := visits_meeting hread
    have hpos : inside.size ≠ 0 := by
      have hpush : (compileExpr count.toList).run outside = (_, inside) := rfl
      exact size_ne_zero_of_push ((readable_of_readInt hcount hread).2 ▸ hpush)
    have hbehind : ((compileStmt (.meeting line count body)).run outside).2.size = back + 3 :=
      congrArg (·.2.size) (run_compile_meeting rfl rfl hpos)
    rw [hpasses, hbehind] at hwalk
    exact ⟨printed, fun rounds => ⟨hwalk.loop rounds, hwalk.visited rounds⟩⟩

/-- What is held twice, with a double for the counter: a meeting that should not be held. -/
def agenda : List Stmt := [.report 3 "\"buka\"", .meeting 4 "-1" [.report 5 "1"]]

def twoMeetings : Program where
  body := [.report 1 "2.0", .meeting 2 "2" agenda, .report 6 "\"tutup\""]

/-- A machine that has come to the first meeting, with a value on its stack. -/
def atMeeting : Machine :=
  { Machine.start .plain (compile twoMeetings) 0 1000 false with pc := 4, stack := [.int 7] }

theorem readInt_of_toOption {t : List Char} {n : Int} (h : (Decimal.readInt t).toOption = some n) :
    Decimal.readInt t = .ok n := by
  cases hr : Decimal.readInt t with
  | error e => simp [hr, Except.toOption] at h
  | ok k => simpa [hr, Except.toOption] using h

theorem meeting_passes_twoMeetings :
    (compile twoMeetings).constants.map Value.shown = ["2.0", "-1", "1"] ∧
    (∀ depth, execute (depth + 1) (.meeting 2 "2" agenda) = do
      trace 2 "RapatLoop"
      tick
      let _ ← Run.ofExcept (ofFault (Number.floatOfInt 2))
      times (agenda.forM (execute depth)) 2) ∧
    ∃ printed,
      let m' := { atMeeting with pc := 24, steps := 15, printed }
      ∀ rounds,
        Machine.loop (.float 0.0) (15 + rounds) atMeeting = Machine.loop (.float 0.0) rounds m' ∧
        atMeeting.visited (15 + rounds) =
          [4, 7, 10, 11, 14, 17, 18, 21, 7, 10, 11, 14, 17, 18, 21] ++ m'.visited rounds := by
  have hone : Stmt.Agenda (compile twoMeetings).constants (.report 5 "1") := .report (by decide +kernel)
  have hopen : Stmt.Agenda (compile twoMeetings).constants (.report 3 "\"buka\"") :=
    .report (by decide +kernel)
  have hnone : Stmt.Agenda (compile twoMeetings).constants (.meeting 4 "-1" [.report 5 "1"]) :=
    .meeting (n := -1) (by decide +kernel) (readInt_of_toOption (by decide +kernel)) (.inl (by decide))
      (by simpa using hone)
  have htwo : Decimal.readInt (trim "2".toList) = .ok 2 := readInt_of_toOption (by decide +kernel)
  obtain ⟨hinterpreter, -, hmachine, -⟩ := meeting_passes twoMeetings [.report 1 "2.0"]
    [.report 6 "\"tutup\""] agenda 2 "2" 2 rfl (by decide +kernel) htwo (.inl (by decide))
    (by simpa [agenda] using ⟨hopen, hnone⟩) (by decide +kernel)
  refine ⟨by decide +kernel, hinterpreter (by decide), ?_⟩
  obtain ⟨printed, h⟩ := hmachine atMeeting ⟨⟨rfl, rfl, rfl⟩, rfl⟩ (by decide +kernel)
  have hvisits : visits ((compileBody [.report 1 "2.0"]).run {}).2 (.meeting 2 "2" agenda) =
      [4, 7, 10, 11, 14, 17, 18, 21, 7, 10, 11, 14, 17, 18, 21] := by
    decide +kernel
  have hback : ((compileBody agenda).run ((compileExpr "2".toList).run
      ((compileBody [.report 1 "2.0"]).run {}).2).2).2.size = 21 := by
    decide +kernel
  rw [visits_meeting htwo] at hvisits
  rw [hvisits, hback] at h
  exact ⟨printed, h⟩

/-- A meeting of no passes is held by the machine, and not by the interpreter. -/
theorem empty_meeting_held :
    let p : Program := ⟨[.meeting 1 "0" [.report 2 "1"]]⟩
    ((p.run 2).run.run {}).2.printed = #[] ∧
    (Machine.run (.float 0.0) false (Machine.start .plain (compile p) 0 1000 false)).2.printed =
      #["1\n"] := by
  intro p
  exact ⟨by decide +kernel, by decide +kernel⟩

end Birokrasi.Structured
