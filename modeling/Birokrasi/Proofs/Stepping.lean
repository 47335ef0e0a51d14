import Birokrasi.Machine.Execution
import Birokrasi.Proofs.Outcome

/-!
# Rounds of the plain machine

Which instruction a machine is at is said by its code (`CodeAt`), and what an operation does is said
by one lemma for each. A machine that reaches another in some rounds goes on as that one does, however
many rounds are left (`ReachesIn`).
-/

namespace Birokrasi.Machine

open Birokrasi.Bytecode

/-! ## Actions -/

section Actions

variable {α β : Type} {m m' : Machine} {a : α} {e : Failure}

theorem perform_bind_of_ok {r : Run α} (f : α → Run β) (h : perform r m = (.ok a, m')) :
    perform (r >>= f) m = perform (f a) m' := run_bind_of_ok f h

theorem perform_bind_of_error {r : Run α} (f : α → Run β) (h : perform r m = (.error e, m')) :
    perform (r >>= f) m = (.error e, m') := run_bind_of_error f h

theorem perform_calculate {r : Except Fault α} (h : r = .ok a) :
    perform (calculate r) m = (.ok a, m) := by
  rw [h]
  rfl

theorem perform_pop {v : Value} {rest : List Value} (h : m.stack = v :: rest) :
    perform pop m = (.ok v, { m with stack := rest }) := by
  rw [pop, perform_bind_of_ok _ (r := get) rfl, h]
  rfl

theorem perform_pop_nil (h : m.stack = []) :
    perform pop m = (.error (.fault .emptyPop), m) := by
  rw [pop, perform_bind_of_ok _ (r := get) rfl, h]
  rfl

end Actions

/-! ## Code -/

/-- The instructions stand in the code at an address. -/
def CodeAt (code : Array UInt8) (address : Nat) (is : List Instr) : Prop :=
  ∃ front back, code.toList = front ++ assemble is ++ back ∧ front.length = address

namespace CodeAt

variable {code : Array UInt8} {address : Nat} {is js : List Instr}

theorem left (h : CodeAt code address (is ++ js)) : CodeAt code address is := by
  obtain ⟨front, back, hcode, hlen⟩ := h
  exact ⟨front, assemble js ++ back, by simp [hcode], hlen⟩

theorem right (h : CodeAt code address (is ++ js)) :
    CodeAt code (address + (assemble is).length) js := by
  obtain ⟨front, back, hcode, hlen⟩ := h
  exact ⟨front ++ assemble is, back, by simp [hcode], by simp [hlen]⟩

end CodeAt

variable {m m' m'' : Machine} {address : Nat} {i : Instr}

theorem byteAt?_of_toList {front back : List UInt8} {b : UInt8}
    (h : m.code.toList = front ++ b :: back) : m.byteAt? front.length = some b := by
  have hlen : m.code.size = front.length + (back.length + 1) := by
    rw [← Array.length_toList, h]
    simp
  rw [byteAt?, place?_natCast, if_pos (by omega), Option.bind_some, ← Array.getElem?_toList, h]
  simp

theorem perform_fetch {a : Int} {b : UInt8} (h : m.byteAt? a = some b) :
    perform (fetch a) m = (.ok b, m) := by
  rw [fetch, perform_bind_of_ok _ (r := get) rfl, h]
  rfl

theorem perform_fetch_none {a : Int} (h : m.byteAt? a = none) :
    perform (fetch a) m = (.error (.fault (.indexRange m.edition.memory)), m) := by
  rw [fetch, perform_bind_of_ok _ (r := get) rfl, h]
  rfl

theorem fetch_of_toList {front back : List UInt8} {b : UInt8} {a : Int}
    (h : m.code.toList = front ++ b :: back) (ha : a = front.length) :
    perform (fetch a) m = (.ok b, m) := by
  rw [ha]
  exact perform_fetch (byteAt?_of_toList h)

theorem operand_of_toList {front back : List UInt8} {b low high : UInt8}
    (h : m.code.toList = front ++ b :: low :: high :: back) (hpc : m.pc = front.length) :
    perform operand m = (.ok (low.toNat + 256 * high.toNat), m) := by
  have hlen : m.code.size = front.length + (back.length + 3) := by
    rw [← Array.length_toList, h]
    simp
  have hfront : m.code.toList = (front ++ [b]) ++ low :: high :: back := by simp [h]
  have hfront' : m.code.toList = (front ++ [b, low]) ++ high :: back := by simp [h]
  have hlow : perform (fetch (m.pc + 1)) m = (.ok low, m) :=
    fetch_of_toList hfront (by simp [hpc])
  have hhigh : perform (fetch (m.pc + 2)) m = (.ok high, m) :=
    fetch_of_toList hfront' (by simp [hpc])
  have hcond : ¬ (m.code.size : Int) ≤ m.pc + 2 := by omega
  rw [operand, perform_bind_of_ok _ (r := get) rfl]
  simp only [if_neg hcond]
  exact (perform_bind_of_ok _ hlow).trans (perform_bind_of_ok _ hhigh)

namespace CodeAt

theorem lt_size (h : CodeAt m.code address [i]) : address < m.code.size := by
  obtain ⟨front, back, hcode, hlen⟩ := h
  rw [← Array.length_toList, hcode, ← hlen]
  simp [assemble, Instr.bytes]

theorem fetch (h : CodeAt m.code address [i]) {a : Int} (ha : a = address) :
    perform (Machine.fetch a) m = (.ok i.op.byte, m) := by
  obtain ⟨front, back, hcode, hlen⟩ := h
  have hlist : m.code.toList = front ++ i.op.byte :: (i.bytes.tail ++ back) := by
    simp [hcode, assemble, Instr.bytes]
  exact fetch_of_toList hlist (by rw [ha, hlen])

/-- The operand of a wide instruction is read as it was written. -/
theorem operand (h : CodeAt m.code address [i]) (hpc : m.pc = address) (hw : i.wide)
    (ho : i.operand < 65536) : perform Machine.operand m = (.ok i.operand, m) := by
  obtain ⟨front, back, hcode, hlen⟩ := h
  have hlist : m.code.toList = front ++ i.op.byte :: (i.operand % 256).toUInt8 ::
      (i.operand / 256 % 256).toUInt8 :: back := by
    simp [hcode, assemble, Instr.bytes, hw, littleEndian]
  rw [operand_of_toList hlist (by rw [hpc, hlen])]
  simp only [Nat.toUInt8_eq, UInt8.toNat_ofNat']
  congr 2
  omega

end CodeAt

/-! ## Operations -/

/-- What an operand of a push stands for. -/
def pooled (m : Machine) (n : Nat) : Option Value :=
  if 0x8000 ≤ n then m.strings[n - 0x8000]?.map Value.text else m.constants[n]?

section Operations

variable {n : Nat} {v a b : Value} {k : Int} {rest : List Value}

theorem perform_push (ho : perform operand m = (.ok n, m)) (hv : m.pooled n = some v) :
    perform (effect .push) m = (.ok (), { m with stack := v :: m.stack, pc := m.pc + 3 }) := by
  refine (perform_bind_of_ok _ ho).trans ?_
  refine (perform_bind_of_ok _ (r := get) rfl).trans ?_
  rw [pooled] at hv
  simp only [hv]
  rfl

theorem perform_load (ho : perform operand m = (.ok n, m)) :
    perform (effect .load) m = (.ok (), { m with
      stack := (m.variables.get? (n : Int)).getD (.int 0) :: m.stack, pc := m.pc + 3 }) :=
  (perform_bind_of_ok _ ho).trans rfl

/-- A machine that has given a variable a value, and its figure with it. -/
def stored (id : Int) (v : Value) (m : Machine) : Machine :=
  { m with
    «variables» := m.variables.put id v
    budget := if id = m.budgetSlot then v else m.budget
    progress := if id ≠ m.budgetSlot ∧ id = m.progressSlot then v else m.progress }

/-- What giving a variable a value comes to, once the operand and the value are at hand. -/
theorem perform_assign (id : Int) (v : Value) (m : Machine) :
    perform (do
      modify fun m => { m with «variables» := m.variables.put id v }
      modify fun m =>
        if id = m.budgetSlot then { m with budget := v }
        else if id = m.progressSlot then { m with progress := v }
        else m
      skip 3) m = perform (skip 3) (m.stored id v) := by
  refine (perform_bind_of_ok _ (r := modify _) rfl).trans ?_
  refine (perform_bind_of_ok _ (r := modify _) rfl).trans ?_
  refine congrArg (perform (skip 3)) ?_
  show (if id = m.budgetSlot then _ else if id = m.progressSlot then _ else _) = _
  by_cases hb : id = m.budgetSlot
  · simp [stored, hb]
  · by_cases hp : id = m.progressSlot
    · rw [if_neg hb, if_pos hp, stored, if_neg hb, if_pos ⟨hb, hp⟩]
    · simp [stored, hb, hp]

theorem perform_store (ho : perform operand m = (.ok n, m)) (hs : m.stack = v :: rest) :
    perform (effect .store) m = (.ok (), { m with
      stack := rest
      «variables» := m.variables.put (n : Int) v
      budget := if (n : Int) = m.budgetSlot then v else m.budget
      progress := if (n : Int) ≠ m.budgetSlot ∧ (n : Int) = m.progressSlot then v else m.progress
      pc := m.pc + 3 }) := by
  refine (perform_bind_of_ok _ ho).trans ?_
  refine (perform_bind_of_ok _ (perform_pop hs)).trans ?_
  exact perform_assign n v _

theorem perform_print (hs : m.stack = v :: rest) :
    perform (effect .print) m = (.ok (), { m with
      stack := rest, printed := m.printed.push (v.shown ++ "\n"), pc := m.pc + 1 }) :=
  (perform_bind_of_ok _ (perform_pop hs)).trans rfl

theorem perform_eq (hs : m.stack = b :: a :: rest) :
    perform (effect .eq) m = (.ok (), { m with
      stack := truth (a.equal b) :: rest, pc := m.pc + 1 }) :=
  (perform_bind_of_ok _ (perform_pop hs)).trans (perform_bind_of_ok _ (perform_pop rfl))

theorem perform_binary {f : Value → Value → Run Value} (hs : m.stack = b :: a :: rest)
    (hf : ∀ m, perform (f a b) m = (.ok v, m)) :
    perform (binary f) m = (.ok (), { m with stack := v :: rest, pc := m.pc + 1 }) := by
  refine (perform_bind_of_ok _ (perform_pop hs)).trans ?_
  refine (perform_bind_of_ok _ (perform_pop rfl)).trans ?_
  exact (perform_bind_of_ok _ (hf _)).trans rfl

theorem perform_binary_error {f : Value → Value → Run Value} {e : Failure}
    (hs : m.stack = b :: a :: rest) (hf : ∀ m, perform (f a b) m = (.error e, m)) :
    perform (binary f) m = (.error e, { m with stack := rest }) := by
  refine (perform_bind_of_ok _ (perform_pop hs)).trans ?_
  refine (perform_bind_of_ok _ (perform_pop rfl)).trans ?_
  exact perform_bind_of_error _ (hf _)

theorem perform_jumpIfFalse (ho : perform operand m = (.ok n, m)) (hs : m.stack = v :: rest) :
    perform (effect .jumpIfFalse) m = (.ok (), { m with
      stack := rest, pc := if v.truthy then m.pc + 3 else (n : Int) }) := by
  refine (perform_bind_of_ok _ ho).trans ?_
  refine (perform_bind_of_ok _ (perform_pop hs)).trans ?_
  cases hv : v.truthy <;> rfl

theorem ordered_int (c : Value.Comparison) (k n : Int) :
    Value.ordered c (.int k) (.int n) = .ok (c.holds (compare k n)) := by
  simp [Value.ordered, Value.number?, Value.Comparison.onNumbers, Number.compare?]

theorem greater_int (k n : Int) : (Value.int k).greater (.int n) = .ok (decide (n < k)) := by
  have hcmp : (compare k n == .gt) = decide (n < k) := by
    rw [Bool.eq_iff_iff, beq_iff_eq, decide_eq_true_eq]
    exact Int.compare_eq_gt
  rw [Value.greater, ordered_int, Value.Comparison.holds, hcmp]

/-- A meeting goes back to its start if its counter is greater than one. -/
theorem perform_meet_again {left : Value} (hs : m.stack = v :: rest)
    (hmore : v.greater (.int 1) = .ok true) (hleft : v.sub (.int 1) = .ok left)
    (ho : ∀ stack, perform operand { m with stack } = (.ok n, { m with stack })) :
    perform (effect .meeting) m = (.ok (), { m with stack := left :: rest, pc := (n : Int) }) := by
  refine (perform_bind_of_ok _ (r := get) rfl).trans ?_
  simp only [hs]
  refine (perform_bind_of_ok _ (perform_calculate hmore)).trans ?_
  rw [if_pos rfl]
  refine (perform_bind_of_ok _ (perform_calculate hleft)).trans ?_
  refine (perform_bind_of_ok _ (r := modify _) rfl).trans ?_
  exact perform_bind_of_ok _ (ho _)

/-- Otherwise it takes the counter away and is over. -/
theorem perform_meet_over (hs : m.stack = v :: rest) (hmore : v.greater (.int 1) = .ok false) :
    perform (effect .meeting) m = (.ok (), { m with stack := rest, pc := m.pc + 3 }) := by
  refine (perform_bind_of_ok _ (r := get) rfl).trans ?_
  simp only [hs]
  refine (perform_bind_of_ok _ (perform_calculate hmore)).trans ?_
  rw [if_neg Bool.false_ne_true]
  exact (perform_bind_of_ok _ (perform_pop hs)).trans rfl

theorem perform_meeting_again (hs : m.stack = .int k :: rest) (hk : 1 < k)
    (ho : ∀ stack, perform operand { m with stack } = (.ok n, { m with stack })) :
    perform (effect .meeting) m = (.ok (), { m with
      stack := .int (k - 1) :: rest, pc := (n : Int) }) := by
  have hmore := greater_int k 1
  rw [decide_eq_true hk] at hmore
  exact perform_meet_again hs hmore rfl ho

theorem perform_meeting_over (hs : m.stack = .int k :: rest) (hk : ¬ 1 < k) :
    perform (effect .meeting) m = (.ok (), { m with stack := rest, pc := m.pc + 3 }) := by
  have hmore := greater_int k 1
  rw [decide_eq_false hk] at hmore
  exact perform_meet_over hs hmore

end Operations

/-! ## Rounds -/

/-- A machine that has begun a round. -/
def counted (m : Machine) : Machine := { m with steps := m.steps + 1 }

theorem opcode?_byte (op : Opcode) : opcode? (op.byte.toNat : Int) = some op := by
  cases op <;> decide

theorem opcode?_toNat (b : UInt8) : opcode? (b.toNat : Int) = Opcode.ofByte? b := by
  have hlt := b.toNat_lt
  rw [opcode?, if_pos (by omega)]
  simp

theorem eq_byte_of_ofByte? {b : UInt8} {op : Opcode} (h : op ∈ Opcode.ofByte? b) : b = op.byte := by
  have hfound := List.find?_some (Option.mem_def.1 h)
  exact (of_decide_eq_true hfound).symm

theorem eq_byte_of_opcode? {b : UInt8} {op : Opcode} (h : opcode? b.toNat = some op) :
    b = op.byte := by
  rw [opcode?_toNat] at h
  exact eq_byte_of_ofByte? h

theorem perform_execute {op : Opcode} (hop : op ≠ .finish)
    (h : perform (effect op) m = (.ok (), m')) :
    perform (execute op.byte.toNat) m = (.ok true, m') := by
  simp only [execute, opcode?_byte]
  refine (perform_bind_of_ok _ h).trans ?_
  simp [hop]
  rfl

/-- From `m` the machine gets to `m'` in `k` rounds, without a delay. -/
def ReachesIn (k : Nat) (m m' : Machine) : Prop :=
  ∀ rounds, loop (.float 0.0) (k + rounds) m = loop (.float 0.0) rounds m'

theorem ReachesIn.refl (m : Machine) : ReachesIn 0 m m := fun rounds => by rw [Nat.zero_add]

theorem ReachesIn.trans {k k' : Nat} (h : ReachesIn k m m') (h' : ReachesIn k' m' m'') :
    ReachesIn (k + k') m m'' := fun rounds => by rw [Nat.add_assoc, h, h']

theorem no_delay : (Value.float 0.0).greater (.int 0) = .ok false := by
  have hcmp : (Number.float 0.0).compare? (.int 0) = some .eq := by decide +kernel
  simp [Value.greater, Value.ordered, Value.number?, Value.Comparison.onNumbers, hcmp,
    Value.Comparison.holds]

/-- A machine that has begun a round and shown what it is going to execute. -/
def announced (b : UInt8) (m : Machine) : Machine :=
  if m.traced then
    { m.counted with printed := m.printed.push (m.traceLine b ++ "\n") }
  else m.counted

/-- The part of a round that executes a byte and waits for the delay. -/
def proceed (delay : Value) (b : UInt8) : Run Bool := do
  if (← execute b.toNat) then
    if (← calculate (delay.greater (.int 0))) then wait delay
    return true
  else return false

theorem perform_round_of_fetch (delay : Value) {b : UInt8}
    (hb : perform (fetch m.pc) m.counted = (.ok b, m.counted)) :
    perform (round delay) m = perform (proceed delay b) (m.announced b) := by
  refine (perform_bind_of_ok _ (r := modify _) rfl).trans ?_
  refine (perform_bind_of_ok _ (r := get) rfl).trans ?_
  refine (perform_bind_of_ok _ hb).trans ?_
  refine (perform_bind_of_ok _ (r := get) rfl).trans ?_
  show perform (if m.traced = true then _ else _) m.counted = _
  by_cases ht : m.traced = true
  · rw [if_pos ht, announced, if_pos ht]
    exact perform_bind_of_ok _ (r := print _) rfl
  · rw [if_neg ht, announced, if_neg ht]
    rfl

/-- Without a trace and a delay, a round is what its operation does. -/
theorem perform_round {b : UInt8} (ht : m.traced = false)
    (hb : perform (fetch m.pc) m.counted = (.ok b, m.counted)) :
    perform (round (.float 0.0)) m = perform (execute b.toNat) m.counted := by
  have hannounced : m.announced b = m.counted := by
    rw [announced, ht, if_neg Bool.false_ne_true]
  rw [perform_round_of_fetch _ hb, hannounced, proceed]
  cases hx : perform (execute b.toNat) m.counted with
  | mk r m' =>
    cases r with
    | error e => exact perform_bind_of_error _ hx
    | ok more =>
      refine (perform_bind_of_ok _ hx).trans ?_
      cases more with
      | false => rfl
      | true => exact (perform_bind_of_ok _ (perform_calculate no_delay)).trans rfl

/-- A machine that finds no operation fails. -/
theorem perform_round_of_error {e : Failure} (delay : Value)
    (hb : perform (fetch m.pc) m.counted = (.error e, m.counted)) :
    perform (round delay) m = (.error e, m.counted) := by
  refine (perform_bind_of_ok _ (r := modify _) rfl).trans ?_
  refine (perform_bind_of_ok _ (r := get) rfl).trans ?_
  exact perform_bind_of_error _ hb

/-- An instruction that succeeds takes one round. -/
theorem ReachesIn.instr (hc : CodeAt m.code address [i]) (hpc : m.pc = address)
    (ht : m.traced = false) (hop : i.op ≠ .finish)
    (hx : perform (effect i.op) m.counted = (.ok (), m')) : ReachesIn 1 m m' := by
  have hlt : m.pc < m.code.size := by
    have := hc.lt_size
    omega
  have hc' : CodeAt m.counted.code address [i] := hc
  intro rounds
  rw [Nat.add_comm, loop, if_pos hlt, perform_round ht (hc'.fetch hpc), perform_execute hop hx]

theorem loop_of_end (h : ¬ m.pc < m.code.size) (rounds : Nat) :
    loop (.float 0.0) rounds m = (.ok (), m) := by
  cases rounds with
  | zero => rfl
  | succ rounds => rw [loop, if_neg h]

/-- The instruction that ends a run. -/
theorem loop_finish (hc : CodeAt m.code address [⟨.finish, 0⟩]) (hpc : m.pc = address)
    (ht : m.traced = false) (rounds : Nat) :
    loop (.float 0.0) (rounds + 1) m = (.ok (), m.counted) := by
  have hlt : m.pc < m.code.size := by
    have := hc.lt_size
    omega
  have hc' : CodeAt m.counted.code address [⟨.finish, 0⟩] := hc
  rw [loop, if_pos hlt, perform_round ht (hc'.fetch hpc)]
  simp only [execute, opcode?_byte]
  rfl

end Birokrasi.Machine
