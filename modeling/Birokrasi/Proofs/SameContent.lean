import Birokrasi.Proofs.NextAddresses
import Birokrasi.Proofs.RunEndings

/-!
# Machines with the same content

What a machine is apart from its code, its place and the count of its steps is its `content`.
Machines with the same content do the same at the same operation, if it finds the same operand in
both (`matched_execute_of_content`), though each stands in code of its own. They move on alike, or
both leap to the operand.

A run that ends by itself `Settles`. If machines with the same content keep in step until one of them
settles, then so does the other one, with the same answer and the same content (`InStep.settles`).
-/

namespace Birokrasi.Machine

open Birokrasi.Bytecode

/-- A machine without its code, its place and the count of its steps. -/
def content (m : Machine) : Machine := { m with code := #[], pc := 0, steps := 0, stepLimit := 0 }

/-- Two machines with the same content. -/
def SameContent (m n : Machine) : Prop := m.content = n.content

/-- The same failure of machines with the same content. An operation that is not known is reported
with its address. -/
def SameReport (e e' : Failure) (m n : Machine) : Prop :=
  SameContent m n ∧
    (e = e' ∨ ∃ code, e = .unknownOpcode code m.pc ∧ e' = .unknownOpcode code n.pc)

namespace SameContent

variable {m n : Machine}

theorem look {α : Type} (f : Machine → α) (hf : ∀ m, f m.content = f m) (h : SameContent m n) :
    f m = f n := by
  rw [← hf m, ← hf n, h]

theorem map (f : Machine → Machine) (hf : ∀ m, (f m).content = f m.content) (h : SameContent m n) :
    SameContent (f m) (f n) := by
  rw [SameContent, hf, hf, h]

theorem stack (h : SameContent m n) : m.stack = n.stack := h.look Machine.stack fun _ => rfl

theorem restack (h : SameContent m n) (stack : List Value) :
    SameContent { m with stack } { n with stack } :=
  h.map (fun m => { m with stack }) fun _ => rfl

theorem reprint (h : SameContent m n) (line : String) :
    SameContent { m with printed := m.printed.push line } { n with printed := n.printed.push line } :=
  h.map (fun m => { m with printed := m.printed.push line }) fun _ => rfl

theorem recode (h : SameContent m n) (code : Array UInt8) : SameContent { m with code } n := h

theorem steady : Steady SameReport SameContent where
  fails _ _ _ h := ⟨h, .inl rfl⟩
  refuses code _ _ h := ⟨h, .inr ⟨code, rfl, rfl⟩⟩
  stack h := h.stack
  restack stack h := h.restack stack
  reprint line h := h.reprint line

end SameContent

/-- Machines with the same content that find this operand. -/
structure SameOperand (k : Except Failure Nat) (m n : Machine) : Prop where
  content : SameContent m n
  left : m.operandOf = k
  right : n.operandOf = k

theorem kindred_sameOperand (k : Except Failure Nat) : Kindred SameReport (SameOperand k) where
  fails _ _ _ h := ⟨h.content, .inl rfl⟩
  refuses code _ _ h := ⟨h.content, .inr ⟨code, rfl, rfl⟩⟩
  stack h := h.content.stack
  restack stack h := ⟨h.content.restack stack, h.left, h.right⟩
  reprint line h := ⟨h.content.reprint line, h.left, h.right⟩
  constants h := h.content.look Machine.constants fun _ => rfl
  strings h := h.content.look Machine.strings fun _ => rfl
  operand m n h := by
    rw [perform_operand, perform_operand, h.left, h.right]
    cases k with
    | error e => exact .error _ _ ⟨h.content, .inl rfl⟩
    | ok k => exact .ok k h

theorem moves_sameOperand (k : Except Failure Nat) :
    Moves SameReport (SameOperand k) SameContent where
  skip _ := .modify fun _ _ h => h.content
  goto _ := .modify fun _ _ h => h.content
  stay _ _ h := .ok () h.content

theorem paired_skip_content (size : Int) :
    Paired SameReport SameContent SameContent (skip size) (skip size) :=
  .modify fun _ _ h => h

variable {m n : Machine}

/-- Machines with the same content do the same at an operation, if its operand is the same. -/
theorem matched_effect_of_content {op : Opcode} (h : SameContent m n)
    (hoperand : reads op → m.operandOf = n.operandOf) :
    Matched SameReport SameContent (perform (effect op) m) (perform (effect op) n) := by
  have hsame (hreads : reads op = true) : SameOperand n.operandOf m n := ⟨h, hoperand hreads, rfl⟩
  have hkin := kindred_sameOperand n.operandOf
  have hmoves := moves_sameOperand n.operandOf
  cases op with
  | push | jump | jumpIfFalse | meeting => exact hkin.paired_effect hmoves rfl m n (hsame rfl)
  | load =>
    refine hkin.matched_load hmoves (hsame rfl) fun id _ m' n' h' => ?_
    exact h'.content.look (valueOf id) fun _ => rfl
  | store =>
    exact hkin.matched_store hmoves (hsame rfl) fun id v _ m' n' h' =>
      ⟨h'.content.map (stored id v) fun _ => rfl, h'.left, h'.right⟩
  | embezzle =>
    exact SameContent.steady.paired_embezzle (paired_skip_content 1)
      (fun _ _ h => h.look Machine.budget fun _ => rfl)
      (fun _ _ amount left h _ => h.map (settled amount left) fun _ => rfl) m n h
  | sleep =>
    exact SameContent.steady.paired_sleep (paired_skip_content 1)
      (fun _ _ time h => h.map (fun m => { m with waits := m.waits.push time }) fun _ => rfl) m n h
  | finish => exact .ok () h
  | nop | pop | print | add | sub | mul | div | eq | lt | gt | stall | mod | call | ret =>
    exact SameContent.steady.paired_onStack (paired_skip_content 1) rfl m n h

theorem matched_execute_of_content {b : UInt8} (h : SameContent m n)
    (hoperand : ∀ op ∈ Opcode.ofByte? b, reads op → m.operandOf = n.operandOf) :
    Matched SameReport SameContent (perform (execute b.toNat) m) (perform (execute b.toNat) n) := by
  rw [execute, opcode?_toNat]
  cases hop : Opcode.ofByte? b with
  | none =>
    exact matched_bind (SameContent.steady.paired_refuse (S := SameContent) _ m n h)
      fun _ _ => .pure _
  | some op =>
    exact matched_bind (matched_effect_of_content h (hoperand op hop)) fun _ _ => .pure _

theorem perform_round_of_byteAt? {b : UInt8} (ht : m.traced = false) (hb : m.byteAt? m.pc = some b) :
    perform (round (.float 0.0)) m = perform (execute b.toNat) m.counted :=
  perform_round ht (perform_fetch (m := m.counted) hb)

/-- Machines with the same content, at the same byte and in front of the same operand, make matched
rounds. -/
theorem matched_round_of_content {b : UInt8} (h : SameContent m n) (ht : m.traced = false)
    (hb : m.byteAt? m.pc = some b) (hb' : n.byteAt? n.pc = some b)
    (hoperand : ∀ op ∈ Opcode.ofByte? b, reads op → m.operandOf = n.operandOf) :
    Matched SameReport SameContent (perform (round (.float 0.0)) m)
      (perform (round (.float 0.0)) n) := by
  have ht' : n.traced = false := by rw [← ht, h.look Machine.traced fun _ => rfl]
  rw [perform_round_of_byteAt? ht hb, perform_round_of_byteAt? ht' hb']
  exact matched_execute_of_content (h : SameContent m.counted n.counted) hoperand

/-- A machine after a round at this operation: in the same code, at the destination. -/
structure Arrived (op : Opcode) (m m' : Machine) : Prop where
  code : m'.code = m.code
  pc : m'.pc = destination op m
  untraced : m'.traced = false

theorem keeps_execute_untraced (code : Int) : Keeps (fun m => m.traced = false) (execute code) :=
  keeps_execute (parallel_same (fun _ h => h) (fun _ h => h) (fun _ h => h) fun _ h => h)
    (fun _ _ h => h) (fun _ _ h => h) code

theorem arrived_of_round {b : UInt8} {op : Opcode} {more : Bool} {m' : Machine}
    (ht : m.traced = false) (hb : m.byteAt? m.pc = some b) (hop : op ∈ Opcode.ofByte? b)
    (h : perform (round (.float 0.0)) m = (.ok more, m')) : Arrived op m m' := by
  have htally := tally_round (.float 0.0) m
  rw [h] at htally
  rw [perform_round_of_byteAt? ht hb, eq_byte_of_ofByte? hop] at h
  have hpc := pc_of_execute h
  have htraced := keeps_execute_untraced op.byte.toNat m.counted ht
  rw [show (execute _).run.run m.counted = _ from h] at htraced
  exact ⟨htally.code, hpc, htraced⟩

/-- The run goes on only behind an operation that is known and does not finish it. -/
theorem exists_op_of_round {b : UInt8} {m' : Machine} (ht : m.traced = false)
    (hb : m.byteAt? m.pc = some b) (h : perform (round (.float 0.0)) m = (.ok true, m')) :
    ∃ op ∈ Opcode.ofByte? b, op ≠ .finish := by
  rw [perform_round_of_byteAt? ht hb, execute, opcode?_toNat] at h
  cases hop : Opcode.ofByte? b with
  | some op =>
    rw [hop] at h
    obtain ⟨u, m₁, -, hreturn⟩ := run_bind_eq_ok.1 h
    have hmore : decide (some op ≠ some Opcode.finish) = true :=
      Except.ok.inj (congrArg Prod.fst hreturn)
    exact ⟨op, rfl, by simpa using hmore⟩
  | none =>
    rw [hop] at h
    cases congrArg Prod.fst h

/-- A round that fails does not move. -/
theorem pc_of_round_error {b : UInt8} {e : Failure} {m' : Machine} (ht : m.traced = false)
    (hb : m.byteAt? m.pc = some b) (h : perform (round (.float 0.0)) m = (.error e, m')) :
    m'.pc = m.pc := by
  rw [perform_round_of_byteAt? ht hb, execute, opcode?_toNat] at h
  cases hop : Opcode.ofByte? b with
  | none =>
    rw [hop] at h
    exact (congrArg (fun x => x.2.pc) h).symm
  | some op =>
    rw [hop] at h
    have hends := ends_effect op m.counted
    cases hrun : perform (effect op) m.counted with
    | mk r m₁ =>
      rw [hrun] at hends
      cases r with
      | ok u =>
        rw [perform_bind_of_ok _ hrun] at h
        cases congrArg Prod.fst h
      | error e' =>
        rw [perform_bind_of_error _ hrun] at h
        rw [← (Prod.mk.inj h).2]
        exact hends

/-- Whether a round from here would report an operation that is not known, with its address. -/
def reportsPlace (m : Machine) : Bool :=
  match (perform (round (.float 0.0)) m).1 with
  | .error (.unknownOpcode _ _) => true
  | _ => false

/-! ## Runs that end by themselves -/

/-- From `m` a run comes to this end by itself, in so many rounds. -/
inductive Settles : Nat → Machine → Except Failure Unit × Machine → Prop where
  | ended {m : Machine} (h : ¬ m.pc < m.code.size) : Settles 0 m (.ok (), m)
  | fails {m m' : Machine} {e : Failure} (hdue : m.pc < m.code.size)
    (h : perform (round (.float 0.0)) m = (.error e, m')) : Settles 1 m (.error e, m')
  | finishes {m m' : Machine} (hdue : m.pc < m.code.size)
    (h : perform (round (.float 0.0)) m = (.ok false, m')) : Settles 1 m (.ok (), m')
  | goes {m m' : Machine} {k : Nat} {x : Except Failure Unit × Machine} (hdue : m.pc < m.code.size)
    (h : perform (round (.float 0.0)) m = (.ok true, m')) (hrest : Settles k m' x) :
    Settles (k + 1) m x

variable {k : Nat} {x : Except Failure Unit × Machine}

theorem Settles.loop_eq (h : Settles k m x) {rounds : Nat} (hk : k ≤ rounds) :
    loop (.float 0.0) rounds m = x := by
  induction h generalizing rounds with
  | ended hend => exact loop_of_end hend rounds
  | fails hdue hround =>
    obtain ⟨rounds, rfl⟩ : ∃ r, rounds = r + 1 := ⟨rounds - 1, by omega⟩
    rw [loop, if_pos hdue, hround]
  | finishes hdue hround =>
    obtain ⟨rounds, rfl⟩ : ∃ r, rounds = r + 1 := ⟨rounds - 1, by omega⟩
    rw [loop, if_pos hdue, hround]
  | goes hdue hround _ ih =>
    obtain ⟨rounds, rfl⟩ : ∃ r, rounds = r + 1 := ⟨rounds - 1, by omega⟩
    rw [loop, if_pos hdue, hround]
    exact ih (by omega)

/-- The property holds wherever a run from `m` begins a round. -/
def Throughout (P : Machine → Prop) (m : Machine) : Prop :=
  ∀ rounds, ∀ t ∈ (course (.float 0.0)).begun rounds m, P t

theorem Throughout.now {P : Machine → Prop} (h : Throughout P m) (hdue : m.pc < m.code.size) :
    P m := by
  have hdue' : (course (.float 0.0)).due m = true := decide_eq_true hdue
  refine h 1 m ?_
  rw [Course.begun, if_pos hdue']
  exact List.mem_cons_self

theorem Throughout.next {P : Machine → Prop} {m' : Machine} (h : Throughout P m)
    (hdue : m.pc < m.code.size) (hround : perform (round (.float 0.0)) m = (.ok true, m')) :
    Throughout P m' := by
  intro rounds t ht
  have hdue' : (course (.float 0.0)).due m = true := decide_eq_true hdue
  refine h (rounds + 1) t ?_
  rw [Course.begun, if_pos hdue']
  refine List.mem_cons_of_mem _ ?_
  rw [show (course (.float 0.0)).round.run.run m = _ from hround]
  exact ht

/-! ## Runs in step -/

/-- The same failure, of machines with the same content apart from their stacks. -/
def FailAlike (e e' : Failure) (m n : Machine) : Prop :=
  e = e' ∧ SameContent { m with stack := [] } { n with stack := [] }

/-- The same end of two runs. -/
def SameEnding (x y : Except Failure Unit × Machine) : Prop := Matched FailAlike SameContent x y

theorem SameEnding.trans {x y z : Except Failure Unit × Machine} (h : SameEnding x y)
    (h' : SameEnding y z) : SameEnding x z := by
  cases h with
  | ok u hsame =>
    cases h' with
    | ok _ hsame' => exact .ok u (Eq.trans hsame hsame')
  | error e e' hfail =>
    cases h' with
    | error _ e'' hfail' =>
      exact .error e e'' ⟨hfail.1.trans hfail'.1, Eq.trans hfail.2 hfail'.2⟩

/-- What becomes of a machine that keeps in step with the outcome of a round: it comes to the same
end, or to a machine that is related again, after at most so many rounds of its own. -/
inductive Kept (R : Machine → Machine → Prop) (most : Nat) (n : Machine) :
    Except Failure Bool × Machine → Prop where
  | fails {e : Failure} {m' : Machine} {k : Nat} {y : Except Failure Unit × Machine}
    (h : Settles k n y) (hk : k ≤ most) (hend : SameEnding (.error e, m') y) :
    Kept R most n (.error e, m')
  | finishes {m' : Machine} {k : Nat} {y : Except Failure Unit × Machine}
    (h : Settles k n y) (hk : k ≤ most) (hend : SameEnding (.ok (), m') y) :
    Kept R most n (.ok false, m')
  | goes {m' n' : Machine} (h : ∀ {k y}, Settles k n' y → ∃ k' ≤ k + most, Settles k' n y)
    (hR : R m' n') : Kept R most n (.ok true, m')

/-- A round made first leaves a machine in step. -/
theorem Kept.of_round {R : Machine → Machine → Prop} {most : Nat} {n n' : Machine}
    {u : Except Failure Bool × Machine} (hdue : n.pc < n.code.size)
    (hround : perform (round (.float 0.0)) n = (.ok true, n')) (h : Kept R most n' u) :
    Kept R (most + 1) n u := by
  cases h with
  | fails hrest hk hend => exact .fails (.goes hdue hround hrest) (by omega) hend
  | finishes hrest hk hend => exact .finishes (.goes hdue hround hrest) (by omega) hend
  | goes hrest hR =>
    refine .goes (fun hsettles => ?_) hR
    obtain ⟨k, hk, hsettles'⟩ := hrest hsettles
    exact ⟨k + 1, by omega, .goes hdue hround hsettles'⟩

theorem Kept.mono {R : Machine → Machine → Prop} {most most' : Nat} (hmost : most ≤ most')
    {n : Machine} {u : Except Failure Bool × Machine} (h : Kept R most n u) : Kept R most' n u := by
  cases h with
  | fails hrest hk hend => exact .fails hrest (by omega) hend
  | finishes hrest hk hend => exact .finishes hrest (by omega) hend
  | goes hrest hR =>
    refine .goes (fun hsettles => ?_) hR
    obtain ⟨k, hk, hsettles'⟩ := hrest hsettles
    exact ⟨k, by omega, hsettles'⟩

/-- A relation that rounds keep, at least those that begin in machines with `P`; the other machine
makes at most two rounds for one. -/
structure InStep (P : Machine → Prop) (R : Machine → Machine → Prop) : Prop where
  ended : ∀ {m n}, R m n → ¬ m.pc < m.code.size → ¬ n.pc < n.code.size ∧ SameContent m n
  round : ∀ {m n}, R m n → m.pc < m.code.size → P m → Kept R 2 n (perform (round (.float 0.0)) m)

/-- A machine that keeps in step with one that settles comes to the same end. -/
theorem InStep.settles {P : Machine → Prop} {R : Machine → Machine → Prop} (hstep : InStep P R)
    (hm : Settles k m x) (hP : Throughout P m) (hR : R m n) :
    ∃ k' ≤ 2 * k, ∃ y, Settles k' n y ∧ SameEnding x y := by
  induction hm generalizing n with
  | ended hend =>
    obtain ⟨hend', hsame⟩ := hstep.ended hR hend
    exact ⟨0, Nat.le_refl _, _, .ended hend', .ok () hsame⟩
  | fails hdue hround =>
    have hkept := hstep.round hR hdue (hP.now hdue)
    rw [hround] at hkept
    cases hkept with
    | fails h hk hend => exact ⟨_, hk, _, h, hend⟩
  | finishes hdue hround =>
    have hkept := hstep.round hR hdue (hP.now hdue)
    rw [hround] at hkept
    cases hkept with
    | finishes h hk hend => exact ⟨_, hk, _, h, hend⟩
  | goes hdue hround _ ih =>
    have hkept := hstep.round hR hdue (hP.now hdue)
    rw [hround] at hkept
    cases hkept with
    | goes h hR' =>
      obtain ⟨k', hk', y, hsettles, hend⟩ := ih (hP.next hdue hround) hR'
      obtain ⟨k'', hk'', hsettles'⟩ := h hsettles
      exact ⟨k'', by omega, y, hsettles', hend⟩

/-- Machines with the same content keep in step by a round at the same byte, in front of the same
operand. -/
theorem kept_of_content {R : Machine → Machine → Prop} {b : UInt8} (h : SameContent m n)
    (ht : m.traced = false) (hb : m.byteAt? m.pc = some b) (hb' : n.byteAt? n.pc = some b)
    (hdue : n.pc < n.code.size)
    (hoperand : ∀ op ∈ Opcode.ofByte? b, reads op → m.operandOf = n.operandOf)
    (hreport : m.reportsPlace → m.pc = n.pc)
    (hnext : ∀ op ∈ Opcode.ofByte? b, op ≠ .finish → ∀ m' n', SameContent m' n' → Arrived op m m' →
      Arrived op n n' → R m' n') :
    Kept R 1 n (perform (round (.float 0.0)) m) := by
  have ht' : n.traced = false := by rw [← ht, h.look Machine.traced fun _ => rfl]
  have hmatch := matched_round_of_content h ht hb hb' hoperand
  generalize hm : perform (round (.float 0.0)) m = u at hmatch
  generalize hn : perform (round (.float 0.0)) n = v at hmatch
  cases hmatch with
  | error e e' hE =>
    obtain ⟨hsame, hreason⟩ := hE
    refine .fails (.fails hdue hn) (Nat.le_refl 1) (.error _ _ ⟨?_, hsame.restack []⟩)
    rcases hreason with rfl | ⟨code, rfl, rfl⟩
    · rfl
    · have hplace : m.pc = n.pc := hreport (by rw [reportsPlace, hm])
      rw [pc_of_round_error ht hb hm, pc_of_round_error ht' hb' hn, hplace]
  | ok more hsame =>
    cases more with
    | false => exact .finishes (.finishes hdue hn) (Nat.le_refl 1) (.ok () hsame)
    | true =>
      obtain ⟨op, hop, hmore⟩ := exists_op_of_round ht hb hm
      exact .goes (fun hrest => ⟨_, Nat.le_refl _, .goes hdue hn hrest⟩) (hnext op hop hmore _ _ hsame
        (arrived_of_round ht hb hop hm) (arrived_of_round ht' hb' hop hn))

/-! ## Answers -/

/-- The same answer and the same output. -/
def SameAnswer (x y : Bool × Machine) : Prop := x.1 = y.1 ∧ x.2.printed = y.2.printed

theorem sameAnswer_conclude {u v : Except Failure Unit × Machine} (h : SameEnding u v) :
    SameAnswer (conclude u.1 u.2) (conclude v.1 v.2) := by
  cases h with
  | ok _ hsame => exact ⟨rfl, hsame.look Machine.printed fun _ => rfl⟩
  | error e e' hfail =>
    obtain ⟨rfl, hsame⟩ := hfail
    have hprinted := hsame.look (fun m => (conclude (.error e) m).2.printed) fun _ => rfl
    exact ⟨rfl, hprinted⟩

/-- Loops that come to the same end make runs with the same answer. -/
theorem sameAnswer_run (challenge : Bool) (hx : loop (.float 0.0) m.roundsLeft m = x)
    {y : Except Failure Unit × Machine} (hy : loop (.float 0.0) n.roundsLeft n = y)
    (h : SameEnding x y) :
    SameAnswer (run (.float 0.0) challenge m) (run (.float 0.0) challenge n) := by
  unfold run
  rw [hx, hy]
  cases h with
  | error e e' hfail => exact sameAnswer_conclude (.error e e' hfail)
  | ok u hsame =>
    cases challenge with
    | false => exact sameAnswer_conclude (.ok () hsame)
    | true =>
      refine sameAnswer_conclude
        (paired_awardFlag (E := FailAlike) (R := SameContent) ?_ ?_ ?_ _ _ hsame)
      · exact fun _ _ _ hsame => ⟨rfl, hsame.restack []⟩
      · exact fun _ => .modify fun _ _ hsame => hsame.reprint _
      · exact fun _ _ hsame => ⟨hsame.look Machine.budget fun _ => rfl,
          hsame.look Machine.progress fun _ => rfl, hsame.look Machine.embezzled fun _ => rfl⟩

end Birokrasi.Machine
