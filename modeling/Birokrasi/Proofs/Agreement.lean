import Birokrasi.Proofs.Stepping

/-!
# Machines in agreement

Two machines perform the same actions. Actions are `Paired` if related machines come to matched
outcomes by them. The operations are taken apart once: those that only work on the stack and the
output in `paired_onStack`, and all that treat machines with the same operand alike, wherever they
stand, in `Kindred.paired_effect`; what remains of an operation is a question to the relation
(`matched_execute`). Machines at the same place are the case of `Parallel`. What a single machine keeps
is the case of a machine that is paired with itself (`matched_same`).
-/

namespace Birokrasi.Machine

open Birokrasi.Bytecode

/-- Machines related by `R` come to matched outcomes by these actions. -/
def Paired {α : Type} (E : Failure → Failure → Machine → Machine → Prop)
    (R S : Machine → Machine → Prop) (r s : Run α) : Prop :=
  ∀ m n : Machine, R m n → Matched E S (perform r m) (perform s n)

/-! ## Rules -/

section Rules

variable {α β : Type} {E : Failure → Failure → Machine → Machine → Prop}
  {R S T : Machine → Machine → Prop}

theorem matched_bind {r s : Run α} {f g : α → Run β} {m n : Machine}
    (h : Matched E S (perform r m) (perform s n))
    (hf : ∀ a, (perform r m).1 = .ok a → Paired E S T (f a) (g a)) :
    Matched E T (perform (r >>= f) m) (perform (s >>= g) n) := by
  generalize hr : perform r m = u at h hf
  generalize hs : perform s n = v at h
  cases h with
  | ok a hS =>
    rw [perform_bind_of_ok f hr, perform_bind_of_ok g hs]
    exact hf a rfl _ _ hS
  | error e e' hE =>
    rw [perform_bind_of_error f hr, perform_bind_of_error g hs]
    exact .error e e' hE

namespace Paired

theorem bind {r s : Run α} {f g : α → Run β} (h : Paired E R S r s)
    (hf : ∀ a, Paired E S T (f a) (g a)) : Paired E R T (r >>= f) (s >>= g) :=
  fun m n hR => matched_bind (h m n hR) fun a _ => hf a

theorem pure (a : α) : Paired E R R (pure a) (pure a) := fun _ _ hR => .ok a hR

theorem throw {e e' : Failure} (h : ∀ m n, R m n → E e e' m n) :
    Paired E R S (throw e : Run α) (throw e') :=
  fun m n hR => .error e e' (h m n hR)

theorem ite {c : Prop} [Decidable c] {r s r' s' : Run α} (h : Paired E R S r s)
    (h' : Paired E R S r' s') : Paired E R S (if c then r else r') (if c then s else s') := by
  split
  · exact h
  · exact h'

theorem modify {f g : Machine → Machine} (h : ∀ m n, R m n → S (f m) (g n)) :
    Paired E R S (modify f) (modify g) :=
  fun m n hR => .ok () (h m n hR)

theorem get {f g : Machine → Run α}
    (h : ∀ m n, R m n → Matched E S (perform (f m) m) (perform (g n) n)) :
    Paired E R S (get >>= f) (get >>= g) := by
  intro m n hR
  rw [perform_bind_of_ok f (r := MonadState.get) rfl, perform_bind_of_ok g (r := MonadState.get) rfl]
  exact h m n hR

/-- What is looked up in one machine is the same in the other one. -/
theorem look {f : Machine → Run α} (h : ∀ m n, R m n → f m = f n)
    (hf : ∀ m, Paired E R S (f m) (f m)) : Paired E R S (MonadState.get >>= f) (MonadState.get >>= f) :=
  get fun m n hR => by
    rw [← h m n hR]
    exact hf m m n hR

end Paired

theorem paired_calculate (hE : ∀ e m n, R m n → E e e m n) (r : Except Fault α) :
    Paired E R R (calculate r) (calculate r) := by
  cases r with
  | ok a => exact .pure a
  | error f => exact .throw (hE _)

end Rules

/-! ## Operations on the stack -/

/-- Relations that work on the stack and on the output keeps. -/
structure Steady (E : Failure → Failure → Machine → Machine → Prop)
    (R : Machine → Machine → Prop) : Prop where
  fails : ∀ e m n, R m n → E e e m n
  refuses : ∀ code m n, R m n → E (.unknownOpcode code m.pc) (.unknownOpcode code n.pc) m n
  stack : ∀ {m n}, R m n → m.stack = n.stack
  restack : ∀ {m n} stack, R m n → R { m with stack } { n with stack }
  reprint : ∀ {m n} line, R m n →
    R { m with printed := m.printed.push line } { n with printed := n.printed.push line }

section Stack

variable {E : Failure → Failure → Machine → Machine → Prop} {R S : Machine → Machine → Prop}

namespace Steady

theorem paired_pop (h : Steady E R) : Paired E R R pop pop := by
  intro m n hR
  have hstack := h.stack hR
  cases hs : m.stack with
  | nil =>
    rw [perform_pop_nil hs, perform_pop_nil (hstack ▸ hs)]
    exact .error _ _ (h.fails _ m n hR)
  | cons v rest =>
    rw [perform_pop hs, perform_pop (hstack ▸ hs)]
    exact .ok v (h.restack rest hR)

theorem paired_push (h : Steady E R) (v : Value) : Paired E R R (push v) (push v) :=
  .modify fun m n hR => by
    rw [h.stack hR]
    exact h.restack _ hR

theorem paired_print (h : Steady E R) (line : String) :
    Paired E R R (print line) (print line) :=
  .modify fun _ _ => h.reprint _

theorem paired_refuse (h : Steady E R) (code : Int) :
    Paired E R S (refuse code) (refuse code) :=
  .get fun m n hR => .error _ _ (h.refuses code m n hR)

theorem paired_binary (h : Steady E R) (hskip : Paired E R S (skip 1) (skip 1))
    {f : Value → Value → Run Value} (hf : ∀ a b, Paired E R R (f a b) (f a b)) :
    Paired E R S (binary f) (binary f) :=
  h.paired_pop.bind fun b => h.paired_pop.bind fun a => (hf a b).bind fun v =>
    (h.paired_push v).bind fun _ => hskip

theorem paired_divide (h : Steady E R) (a b : Value) :
    Paired E R R (divide a b) (divide a b) := by
  refine .ite (.bind (S := R) (.throw (h.fails _)) fun _ => ?_) ?_
  · split <;> exact paired_calculate h.fails _
  · split <;> exact paired_calculate h.fails _

end Steady

/-- The operations that only work on the stack and the output, and those that the machine does not
know. -/
def onStack : Opcode → Bool
  | .nop | .pop | .print | .add | .sub | .mul | .div | .eq | .lt | .gt | .stall | .mod | .call
  | .ret => true
  | _ => false

theorem Steady.paired_onStack (h : Steady E R) (hskip : Paired E R S (skip 1) (skip 1))
    {op : Opcode} (hop : onStack op) : Paired E R S (effect op) (effect op) := by
  have hcalc {α : Type} (r : Except Fault α) := paired_calculate h.fails r
  cases op with
  | nop => exact hskip
  | pop => exact h.paired_pop.bind fun _ => hskip
  | print => exact h.paired_pop.bind fun v => (h.paired_print _).bind fun _ => hskip
  | add | sub | mul => exact h.paired_binary hskip fun a b => hcalc _
  | div => exact h.paired_binary hskip h.paired_divide
  | eq => exact h.paired_binary hskip fun a b => .pure _
  | lt | gt => exact h.paired_binary hskip fun a b => (hcalc _).bind fun c => .pure _
  | stall =>
    exact h.paired_pop.bind fun v => (h.paired_print _).bind fun _ => .throw (h.fails _)
  | mod | call | ret => exact h.paired_refuse _
  | push | load | store | jump | jumpIfFalse | embezzle | meeting | sleep | finish => cases hop

end Stack

/-! ## Operands -/

/-- The operand that a machine finds. -/
def operandOf (m : Machine) : Except Failure Nat :=
  if m.code.size ≤ m.pc + 2 then .ok 0
  else
    match m.byteAt? (m.pc + 1), m.byteAt? (m.pc + 2) with
    | some low, some high => .ok (low.toNat + 256 * high.toNat)
    | _, _ => .error (.fault (.indexRange m.edition.memory))

theorem perform_operand (m : Machine) : perform operand m = (m.operandOf, m) := by
  rw [operand, perform_bind_of_ok _ (r := get) rfl, operandOf]
  split
  · rfl
  · cases hlow : m.byteAt? (m.pc + 1) with
    | none => exact perform_bind_of_error _ (perform_fetch_none hlow)
    | some low =>
      refine (perform_bind_of_ok _ (perform_fetch hlow)).trans ?_
      cases hhigh : m.byteAt? (m.pc + 2) with
      | none => exact perform_bind_of_error _ (perform_fetch_none hhigh)
      | some high => exact perform_bind_of_ok _ (perform_fetch hhigh)

theorem operandOf_announced (m : Machine) (b : UInt8) : (m.announced b).operandOf = m.operandOf := by
  rw [announced]
  split <;> rfl

/-- The value of a variable; one that has none counts as zero. -/
def valueOf (id : Int) (m : Machine) : Value := (m.variables.get? id).getD (.int 0)

/-! ## Money -/

/-- What remains of taking money when the amount is known, and what it leaves. -/
def settle (amount : Int) (left : Value) : Run Unit := do
  modify fun m => { m with budget := left, embezzled := m.embezzled + amount }
  let time ← drawBetween 2 8
  modify fun m => { m with timeline := m.timeline + time }
  modify fun m => { m with «variables» := m.variables.put m.budgetSlot m.budget }
  let excuse ← drawExcuse
  print (excuse ++ " (-" ++ Decimal.intText amount ++ ")")
  if (← calculate (left.less (.int 0))) then throw .audited
  skip 1

/-- A machine from which an amount has been taken. -/
def settled (amount : Int) (left : Value) (m : Machine) : Machine :=
  let time := m.rng.between 2 8
  let excuse := time.2.choice "" m.edition.excuses
  { m with
    budget := left
    embezzled := m.embezzled + amount
    timeline := m.timeline + time.1
    «variables» := m.variables.put m.budgetSlot left
    rng := excuse.2
    printed := m.printed.push (excuse.1 ++ " (-" ++ Decimal.intText amount ++ ")" ++ "\n") }

theorem perform_drawBetween (low high : Int) (m : Machine) :
    perform (drawBetween low high) m =
      (.ok (m.rng.between low high).1, { m with rng := (m.rng.between low high).2 }) := by
  refine (perform_bind_of_ok _ (r := get) rfl).trans ?_
  generalize m.rng.between low high = drawn
  rfl

theorem perform_drawExcuse (m : Machine) :
    perform drawExcuse m =
      (.ok (m.rng.choice "" m.edition.excuses).1,
        { m with rng := (m.rng.choice "" m.edition.excuses).2 }) := by
  refine (perform_bind_of_ok _ (r := get) rfl).trans ?_
  generalize m.rng.choice "" m.edition.excuses = drawn
  rfl

/-- All is written when the budget is looked at, which is where taking money may fail. -/
theorem perform_settle (amount : Int) (left : Value) (m : Machine) :
    perform (settle amount left) m = perform (do
      if (← calculate (left.less (.int 0))) then throw .audited
      skip 1) (m.settled amount left) := by
  refine (perform_bind_of_ok _ (r := modify _) rfl).trans ?_
  refine (perform_bind_of_ok _ (perform_drawBetween 2 8 _)).trans ?_
  refine (perform_bind_of_ok _ (r := modify _) rfl).trans ?_
  refine (perform_bind_of_ok _ (r := modify _) rfl).trans ?_
  refine (perform_bind_of_ok _ (perform_drawExcuse _)).trans ?_
  exact perform_bind_of_ok _ (r := print _) rfl

section Money

variable {E : Failure → Failure → Machine → Machine → Prop} {R S : Machine → Machine → Prop}

theorem Steady.paired_embezzle (h : Steady E R) (hskip : Paired E R S (skip 1) (skip 1))
    (hbudget : ∀ m n, R m n → m.budget = n.budget)
    (hsettled : ∀ m n amount left, R m n → m.budget.sub (.int amount) = .ok left →
      R (m.settled amount left) (n.settled amount left)) :
    Paired E R S embezzle embezzle := by
  refine h.paired_pop.bind fun percent => ?_
  refine .look (fun m n hR => by rw [hbudget m n hR]) fun _ => ?_
  -- The budget is looked up a second time, and still is what it was.
  refine (paired_calculate h.fails _).bind fun amount => .get fun m n hR => ?_
  rw [← hbudget m n hR]
  cases hsub : m.budget.sub (.int amount) with
  | error f => exact .error _ _ (h.fails _ m n hR)
  | ok left =>
    show Matched E S (perform (settle amount left) m) (perform (settle amount left) n)
    rw [perform_settle, perform_settle]
    refine Paired.bind (paired_calculate h.fails _) (fun low => .ite ?_ hskip) _ _
      (hsettled m n amount left hR hsub)
    exact .bind (S := R) (.throw (h.fails _)) fun _ => hskip

end Money

/-! ## Waiting -/

section Waiting

variable {E : Failure → Failure → Machine → Machine → Prop} {R S : Machine → Machine → Prop}

theorem Steady.paired_wait (h : Steady E R)
    (hwait : ∀ m n time, R m n →
      R { m with waits := m.waits.push time } { n with waits := n.waits.push time })
    (time : Value) : Paired E R R (wait time) (wait time) :=
  (paired_calculate h.fails _).bind fun _ => .modify fun m n => hwait m n time

theorem Steady.paired_sleep (h : Steady E R) (hskip : Paired E R S (skip 1) (skip 1))
    (hwait : ∀ m n time, R m n →
      R { m with waits := m.waits.push time } { n with waits := n.waits.push time }) :
    Paired E R S sleep sleep :=
  h.paired_pop.bind fun _ => (paired_calculate h.fails _).bind fun length =>
    (h.paired_wait hwait length).bind fun _ => hskip

end Waiting

/-! ## Machines with the same operand -/

/-- Relations between machines that find the same operand and the same pools, wherever they stand. -/
structure Kindred (E : Failure → Failure → Machine → Machine → Prop)
    (R : Machine → Machine → Prop) : Prop extends Steady E R where
  constants : ∀ {m n}, R m n → m.constants = n.constants
  strings : ∀ {m n}, R m n → m.strings = n.strings
  operand : Paired E R R operand operand

/-- What becomes of a relation when both machines move. -/
structure Moves (E : Failure → Failure → Machine → Machine → Prop)
    (R S : Machine → Machine → Prop) : Prop where
  skip : ∀ size, Paired E R S (skip size) (skip size)
  goto : ∀ address, Paired E R S (goto address) (goto address)
  stay : Paired E R S (pure ()) (pure ())

/-- The operations that treat such machines alike, whatever figures and variables they hold and whatever
edition they are. -/
def ordinary : Opcode → Bool
  | .load | .store | .embezzle | .sleep => false
  | _ => true

namespace Kindred

variable {E : Failure → Failure → Machine → Machine → Prop} {R S : Machine → Machine → Prop}
  {m n : Machine}

theorem paired_pushPooled (h : Kindred E R) (hmoves : Moves E R S) :
    Paired E R S pushPooled pushPooled := by
  refine h.operand.bind fun k => .look (fun m n hR => ?_) fun m => ?_
  · rw [h.strings hR, h.constants hR]
  · simp only
    split
    · exact (h.paired_push _).bind fun _ => hmoves.skip 3
    · exact .bind (S := R) (.throw (h.fails _)) fun _ => hmoves.skip 3

theorem paired_jumpIfFalse (h : Kindred E R) (hmoves : Moves E R S) :
    Paired E R S jumpIfFalse jumpIfFalse :=
  h.operand.bind fun address => h.paired_pop.bind fun _ =>
    .ite (hmoves.skip 3) (hmoves.goto address)

theorem paired_meet (h : Kindred E R) (hmoves : Moves E R S) : Paired E R S meet meet := by
  refine .look (fun m n hR => by rw [h.stack hR]) fun m => ?_
  split
  · exact hmoves.skip 3
  · next count rest _ =>
    refine (paired_calculate h.fails _).bind fun again => .ite ?_ ?_
    · refine (paired_calculate h.fails _).bind fun left => ?_
      refine Paired.bind (S := R) (.modify fun _ _ => h.restack _) fun _ => ?_
      exact h.operand.bind fun address => hmoves.goto address
    · exact h.paired_pop.bind fun _ => hmoves.skip 3

theorem paired_effect (h : Kindred E R) (hmoves : Moves E R S) {op : Opcode} (hop : ordinary op) :
    Paired E R S (effect op) (effect op) := by
  by_cases hstack : onStack op
  · exact h.paired_onStack (hmoves.skip 1) hstack
  · cases op with
    | push => exact h.paired_pushPooled hmoves
    | jump => exact h.operand.bind fun address => hmoves.goto address
    | jumpIfFalse => exact h.paired_jumpIfFalse hmoves
    | meeting => exact h.paired_meet hmoves
    | finish => exact hmoves.stay
    | load | store | embezzle | sleep => cases hop
    | nop | pop | print | add | sub | mul | div | eq | lt | gt | stall | mod | call | ret =>
      exact absurd rfl hstack

theorem matched_load (h : Kindred E R) (hmoves : Moves E R S) (hR : R m n)
    (hsame : ∀ id, m.operandOf = .ok id → ∀ m' n', R m' n' → m'.valueOf id = n'.valueOf id) :
    Matched E S (perform loadVariable m) (perform loadVariable n) := by
  refine matched_bind (h.operand m n hR) fun id hid => ?_
  rw [perform_operand] at hid
  refine .look (fun m' n' hR' => ?_) fun m' => (h.paired_push _).bind fun _ => hmoves.skip 3
  have hvalue := hsame id hid m' n' hR'
  simp only [valueOf] at hvalue
  rw [hvalue]

theorem matched_store (h : Kindred E R) (hmoves : Moves E R S) (hR : R m n)
    (hput : ∀ id v, m.operandOf = .ok id → ∀ m' n', R m' n' →
      R (m'.stored id v) (n'.stored id v)) :
    Matched E S (perform storeVariable m) (perform storeVariable n) := by
  refine matched_bind (h.operand m n hR) fun id hid => h.paired_pop.bind fun v => ?_
  rw [perform_operand] at hid
  intro m' n' hR'
  rw [perform_assign, perform_assign]
  exact hmoves.skip 3 _ _ (hput id v hid m' n' hR')

/-- Such machines do the same, if they do so at the operations that are not ordinary. -/
theorem matched_execute (h : Kindred E R) (hmoves : Moves E R S) (hR : R m n) (code : Int)
    (hop : ∀ op, opcode? code = some op → ordinary op = false →
      Matched E S (perform (effect op) m) (perform (effect op) n)) :
    Matched E S (perform (execute code) m) (perform (execute code) n) := by
  rw [execute]
  cases hc : opcode? code with
  | none => exact matched_bind (h.paired_refuse (S := S) code m n hR) fun _ _ => .pure _
  | some op =>
    refine matched_bind (S := S) ?_ fun _ _ => .pure _
    cases hord : ordinary op with
    | true => exact h.paired_effect hmoves hord m n hR
    | false => exact hop op hc hord

end Kindred

/-! ## Machines at the same place -/

/-- Relations between machines at the same place of the same code, which ordinary operations keep. -/
structure Parallel (E : Failure → Failure → Machine → Machine → Prop)
    (R : Machine → Machine → Prop) : Prop extends Steady E R where
  code : ∀ {m n}, R m n → m.code = n.code
  pc : ∀ {m n}, R m n → m.pc = n.pc
  constants : ∀ {m n}, R m n → m.constants = n.constants
  strings : ∀ {m n}, R m n → m.strings = n.strings
  repc : ∀ {m n} pc, R m n → R { m with pc } { n with pc }
  rewait : ∀ {m n} time, R m n →
    R { m with waits := m.waits.push time } { n with waits := n.waits.push time }
  /-- The failures of reading outside the code. -/
  outside : ∀ m n, R m n →
    E (.fault (.indexRange m.edition.memory)) (.fault (.indexRange n.edition.memory)) m n

section Parallel

variable {E : Failure → Failure → Machine → Machine → Prop} {R : Machine → Machine → Prop}
  {m n : Machine}

namespace Parallel

theorem byteAt?_eq (h : Parallel E R) {m n : Machine} (hR : R m n) (address : Int) :
    m.byteAt? address = n.byteAt? address := by
  rw [byteAt?, byteAt?, h.code hR]

theorem paired_fetch (h : Parallel E R) (address : Int) :
    Paired E R R (fetch address) (fetch address) :=
  .get fun m n hR => by
    rw [← h.byteAt?_eq hR]
    cases m.byteAt? address with
    | some b => exact .ok b hR
    | none => exact .error _ _ (h.outside m n hR)

theorem paired_operand (h : Parallel E R) : Paired E R R operand operand :=
  .look (fun m n hR => by simp only [h.code hR, h.pc hR]) fun m =>
    .ite (.pure 0) <| (h.paired_fetch _).bind fun low => (h.paired_fetch _).bind fun high => .pure _

theorem kindred (h : Parallel E R) : Kindred E R := { h with operand := h.paired_operand }

theorem paired_wait (h : Parallel E R) (time : Value) : Paired E R R (wait time) (wait time) :=
  h.toSteady.paired_wait (fun _ _ time => h.rewait time) time

theorem moves (h : Parallel E R) : Moves E R R where
  skip size := .modify fun m n hR => by
    rw [h.pc hR]
    exact h.repc _ hR
  goto address := .modify fun _ _ => h.repc address
  stay := .pure ()

theorem matched_load (h : Parallel E R) (hR : R m n)
    (hsame : ∀ id, m.operandOf = .ok id → ∀ m' n', R m' n' → m'.valueOf id = n'.valueOf id) :
    Matched E R (perform loadVariable m) (perform loadVariable n) :=
  h.kindred.matched_load h.moves hR hsame

theorem matched_store (h : Parallel E R) (hR : R m n)
    (hput : ∀ id v, m.operandOf = .ok id → ∀ m' n', R m' n' →
      R (m'.stored id v) (n'.stored id v)) :
    Matched E R (perform storeVariable m) (perform storeVariable n) :=
  h.kindred.matched_store h.moves hR hput

theorem paired_embezzle (h : Parallel E R)
    (hbudget : ∀ m n, R m n → m.budget = n.budget)
    (hsettled : ∀ m n amount left, R m n → m.budget.sub (.int amount) = .ok left →
      R (m.settled amount left) (n.settled amount left)) :
    Paired E R R embezzle embezzle :=
  h.toSteady.paired_embezzle (h.moves.skip 1) hbudget hsettled

theorem paired_sleep (h : Parallel E R) : Paired E R R sleep sleep :=
  h.toSteady.paired_sleep (h.moves.skip 1) fun _ _ time => h.rewait time

/-- Machines at the same place do the same, if they do so at the operations that are not ordinary. -/
theorem matched_execute (h : Parallel E R) (hR : R m n) (code : Int)
    (hop : ∀ op, opcode? code = some op → ordinary op = false →
      Matched E R (perform (effect op) m) (perform (effect op) n)) :
    Matched E R (perform (execute code) m) (perform (execute code) n) :=
  h.kindred.matched_execute h.moves hR code hop

end Parallel

/-- Machines that show the same make matched rounds, if they execute the same. -/
theorem Parallel.matched_round (h : Parallel E R) (delay : Value)
    (hcount : ∀ m n, R m n → R m.counted n.counted)
    (htraced : ∀ m n, R m n → m.traced = n.traced)
    (hshow : ∀ m n, R m n → ∀ b, m.traceLine b = n.traceLine b) {m n : Machine} (hR : R m n)
    (hexec : ∀ b, m.byteAt? m.pc = some b → R (m.announced b) (n.announced b) →
      Matched E R (perform (execute b.toNat) (m.announced b))
        (perform (execute b.toNat) (n.announced b))) :
    Matched E R (perform (round delay) m) (perform (round delay) n) := by
  have hcounted := hcount m n hR
  have hbyte : n.counted.byteAt? n.pc = m.counted.byteAt? m.pc := by
    rw [← h.byteAt?_eq hcounted, h.pc hR]
  cases hb : m.counted.byteAt? m.pc with
  | none =>
    rw [perform_round_of_error _ (perform_fetch_none hb),
      perform_round_of_error _ (perform_fetch_none (hbyte.trans hb))]
    exact .error _ _ (h.outside _ _ hcounted)
  | some b =>
    rw [perform_round_of_fetch _ (perform_fetch hb),
      perform_round_of_fetch _ (perform_fetch (hbyte.trans hb))]
    have hannounced : R (m.announced b) (n.announced b) := by
      rw [announced, announced, ← htraced m n hR, ← hshow m n hR]
      split
      · exact h.reprint _ hcounted
      · exact hcounted
    refine matched_bind (hexec b hb hannounced) fun more _ => .ite ?_ (.pure false)
    refine (paired_calculate h.fails _).bind fun late => .ite ?_ (.pure true)
    exact (h.paired_wait delay).bind fun _ => .pure true

/-- The flag is awarded to machines with the same figures, or to none of them. -/
theorem paired_awardFlag (hfails : ∀ e m n, R m n → E e e m n)
    (hprint : ∀ line, Paired E R R (print line) (print line))
    (hfig : ∀ m n, R m n →
      m.budget = n.budget ∧ m.progress = n.progress ∧ m.embezzled = n.embezzled) :
    Paired E R R awardFlag awardFlag := by
  refine .look (fun m n hR => ?_) fun m => ?_
  · obtain ⟨hb, hp, he⟩ := hfig m n hR
    rw [hb, hp, he]
  · exact .ite
      ((paired_calculate hfails _).bind fun _ =>
        .ite (hprint _) (.ite (hprint _) (.pure ())))
      (Paired.bind (.pure false) fun _ =>
        .ite (hprint _) (.ite (hprint _) (.pure ())))

theorem Steady.paired_awardFlag (h : Steady E R)
    (hfig : ∀ m n, R m n →
      m.budget = n.budget ∧ m.progress = n.progress ∧ m.embezzled = n.embezzled) :
    Paired E R R awardFlag awardFlag :=
  Machine.paired_awardFlag h.fails h.paired_print hfig

end Parallel

/-! ## A machine and itself -/

/-- A machine is itself, and has a property. -/
def Same (P : Machine → Prop) (m n : Machine) : Prop := m = n ∧ P m

section Same

variable {α : Type} {P : Machine → Prop} {r : Run α} {m : Machine}

theorem matched_same : Matched (fun _ _ => Same P) (Same P) (perform r m) (perform r m) ↔
    P (perform r m).2 := by
  generalize perform r m = u
  refine ⟨fun h => h.rel.2, fun h => ?_⟩
  obtain ⟨e | a, m'⟩ := u
  · exact .error e e ⟨rfl, h⟩
  · exact .ok a ⟨rfl, h⟩

/-- A property that has nothing to do with the place, the stack, the output and the waiting. -/
theorem parallel_same (hstack : ∀ {m : Machine} stack, P m → P { m with stack })
    (hprint : ∀ {m : Machine} printed, P m → P { m with printed })
    (hwait : ∀ {m : Machine} waits, P m → P { m with waits })
    (hpc : ∀ {m : Machine} pc, P m → P { m with pc }) :
    Parallel (fun _ _ => Same P) (Same P) where
  fails _ _ _ h := h
  refuses _ _ _ h := h
  outside _ _ h := h
  stack h := by rw [h.1]
  code h := by rw [h.1]
  pc h := by rw [h.1]
  constants h := by rw [h.1]
  strings h := by rw [h.1]
  restack stack h := ⟨by rw [h.1], hstack stack h.2⟩
  reprint line h := ⟨by rw [h.1], hprint _ h.2⟩
  rewait time h := ⟨by rw [h.1], hwait _ h.2⟩
  repc pc h := ⟨by rw [h.1], hpc pc h.2⟩

/-- An operation keeps such a property if writing a variable or a figure does. -/
theorem keeps_execute (h : Parallel (fun _ _ => Same P) (Same P))
    (hstored : ∀ {m : Machine} (id : Int) (v : Value), P m → P (m.stored id v))
    (hsettled : ∀ {m : Machine} (amount : Int) (left : Value), P m → P (m.settled amount left))
    (code : Int) : Keeps P (execute code) := by
  intro m hm
  have hself : Same P m m := ⟨rfl, hm⟩
  refine matched_same.1 (h.matched_execute hself code fun op _ hop => ?_)
  cases op with
  | load =>
    exact h.matched_load hself fun id _ m' n' h' => by rw [h'.1]
  | store =>
    exact h.matched_store hself fun id v _ m' n' h' => ⟨by rw [h'.1], hstored id v h'.2⟩
  | embezzle =>
    refine h.paired_embezzle (fun m' n' h' => by rw [h'.1]) ?_ m m hself
    exact fun m' n' amount left h' _ => ⟨by rw [h'.1], hsettled amount left h'.2⟩
  | sleep =>
    exact h.paired_sleep m m hself
  | _ => cases hop

end Same

end Birokrasi.Machine
