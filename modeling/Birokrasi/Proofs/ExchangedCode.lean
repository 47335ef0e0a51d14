import Birokrasi.Disguise.Variants
import Birokrasi.Proofs.SameContent

/-!
# Code with two triples of bytes exchanged

`exchangeAt` takes the six bytes in front of a sum or product for the two operations that push its
operands, and exchanges them. Where they are such operations, a run of the new code keeps in step
with one of the old (`inStep_exchange`): between the two pushes it lags behind by one of them, and
after both it has the operands the other way round. This needs operands that may be exchanged, and
no leap to the second push; and whatever the six bytes are, no other operation begins or reads its
operand among them (`SparedByExchange`).
-/

namespace Birokrasi.Disguise

open Birokrasi.Bytecode
open Birokrasi.Machine

/-! ## Places -/

/-- Whether the bytes in front of a place are exchanged. -/
def exchanges (code : Array UInt8) (i : Nat) : Bool :=
  (code[i]?.map isCommutative).getD false && 6 ≤ i

/-- Where a byte of the new code stands in the old. -/
def mirrored (w j : Nat) : Nat :=
  if w ≤ j ∧ j < w + 3 then j + 3 else if w + 3 ≤ j ∧ j < w + 6 then j - 3 else j

variable {code : Array UInt8} {w a : Nat}

theorem getElem?_swapIfInBounds {i j : Nat} (hi : i < code.size) (hj : j < code.size) (k : Nat) :
    (code.swapIfInBounds i j)[k]? =
      if j = k then code[i]? else if i = k then code[j]? else code[k]? := by
  rw [Array.swapIfInBounds_def, dif_pos hi, dif_pos hj, Array.getElem?_swap,
    Array.getElem?_eq_getElem hi, Array.getElem?_eq_getElem hj]

theorem exchangeAt_of_not {i : Nat} (h : ¬ exchanges code i) : exchangeAt code i = code := if_neg h

theorem lt_size_of_exchanges (h : exchanges code (w + 6)) : w + 6 < code.size := by
  by_contra hge
  rw [exchanges, Array.getElem?_eq_none (by omega)] at h
  cases h

theorem getElem?_exchangeAt (h : exchanges code (w + 6)) (j : Nat) :
    (exchangeAt code (w + 6))[j]? = code[mirrored w j]? := by
  have hsize := lt_size_of_exchanges h
  have heq : exchangeAt code (w + 6) =
      ((code.swapIfInBounds w (w + 3)).swapIfInBounds (w + 1) (w + 4)).swapIfInBounds (w + 2)
        (w + 5) := if_pos h
  rw [heq]
  repeat rw [getElem?_swapIfInBounds (by simp only [Array.size_swapIfInBounds]; omega)
    (by simp only [Array.size_swapIfInBounds]; omega)]
  unfold mirrored
  grind

theorem size_exchangeAt (code : Array UInt8) (i : Nat) : (exchangeAt code i).size = code.size := by
  unfold exchangeAt
  split <;> simp only [Array.size_swapIfInBounds]

theorem numberAt_exchangeAt (h : exchanges code (w + 6)) {a b : Nat}
    (hlow : mirrored w (a + 1) = b + 1) (hhigh : mirrored w (a + 2) = b + 2) :
    numberAt (exchangeAt code (w + 6)) a = numberAt code b := by
  rw [numberAt, numberAt, getElem?_exchangeAt h, getElem?_exchangeAt h, hlow, hhigh]

/-! ## Pushes, sums and products -/

/-- Whether an operation pushes a value that it is given by its operand. -/
def fetches : Opcode → Bool
  | .push | .load => true
  | _ => false

/-- The value that such an operation pushes. -/
def fetched (op : Opcode) (k : Nat) (m : Machine) : Option Value :=
  if op = .push then m.pooled k else some (m.valueOf k)

/-- Whether such an operation stands at a place. -/
def fetchesAt (code : Array UInt8) (a : Nat) : Bool :=
  ((code[a]?.bind Opcode.ofByte?).map fetches).getD false

theorem exists_op_of_fetchesAt (h : fetchesAt code a) :
    ∃ op, code[a]? = some op.byte ∧ fetches op := by
  rw [fetchesAt] at h
  cases hb : code[a]? with
  | none =>
    rw [hb] at h
    cases h
  | some b =>
    rw [hb, Option.bind_some] at h
    cases hop : Opcode.ofByte? b with
    | none =>
      rw [hop] at h
      cases h
    | some op =>
      rw [hop] at h
      exact ⟨op, by rw [← eq_byte_of_ofByte? hop], h⟩

/-- What a sum or product of two values is. -/
def combined (op : Opcode) (x y : Value) : Except Fault Value :=
  if op = .mul then x.mul y else x.add y

/-- Integers are added and multiplied as integers. -/
theorem combined_eq {x y : Value} {a b : Int} (hx : x.int? = some a) (hy : y.int? = some b)
    (op : Opcode) : combined op x y = .ok (.int (if op = .mul then a * b else a + b)) := by
  unfold combined
  cases x <;> cases hx <;> cases y <;> cases hy <;> split <;> rfl

theorem combined_comm {x y : Value} (hx : x.int?.isSome) (hy : y.int?.isSome) (op : Opcode) :
    combined op x y = combined op y x := by
  obtain ⟨a, ha⟩ := Option.isSome_iff_exists.1 hx
  obtain ⟨b, hb⟩ := Option.isSome_iff_exists.1 hy
  rw [combined_eq ha hb, combined_eq hb ha, Int.mul_comm, Int.add_comm]

theorem exists_op_of_exchanges (h : exchanges code (w + 6)) :
    ∃ op : Opcode, code[w + 6]? = some op.byte ∧ (op = .add ∨ op = .mul) := by
  have hsize := lt_size_of_exchanges h
  rw [exchanges, Array.getElem?_eq_getElem hsize] at h
  simp only [Option.map_some, Option.getD_some, isCommutative, Bool.and_eq_true, Bool.or_eq_true,
    decide_eq_true_eq] at h
  rw [Array.getElem?_eq_getElem hsize]
  rcases h.1 with hadd | hmul
  · exact ⟨.add, by rw [hadd], .inl rfl⟩
  · exact ⟨.mul, by rw [hmul], .inr rfl⟩

section Rounds

variable {m : Machine} {op : Opcode}

theorem byteAt?_of_getElem? {b : UInt8} (ha : m.pc = a) (hb : m.code[a]? = some b) :
    m.byteAt? m.pc = some b := by
  rw [ha, byteAt?_natCast, hb]

theorem round_eq_execute (ht : m.traced = false) (ha : m.pc = a) (hb : m.code[a]? = some op.byte) :
    perform (round (.float 0.0)) m = perform (execute op.byte.toNat) m.counted :=
  perform_round_of_byteAt? ht (byteAt?_of_getElem? ha hb)

theorem perform_operand_at (ha : m.pc = a) :
    perform operand m.counted = (.ok (numberAt m.code a), m.counted) := by
  rw [perform_operand, operandOf_eq (m := m.counted) ha]
  rfl

/-- A machine after a round in which it has pushed a value. -/
def afterPush (v : Value) (m : Machine) : Machine :=
  { m.counted with stack := v :: m.stack, pc := m.pc + 3 }

theorem afterPush_pc {v : Value} (ha : m.pc = a) : (afterPush v m).pc = (a + 3 : Nat) := by
  show m.pc + 3 = _
  omega

theorem round_of_fetched {v : Value} (ht : m.traced = false) (ha : m.pc = a)
    (hb : m.code[a]? = some op.byte) (hop : fetches op)
    (hv : fetched op (numberAt m.code a) m = some v) :
    perform (round (.float 0.0)) m = (.ok true, afterPush v m) := by
  have hoperand := perform_operand_at ha
  rw [round_eq_execute ht ha hb]
  cases op with
  | push => exact perform_execute (by decide) (perform_push hoperand hv)
  | load =>
    obtain rfl := Option.some.inj hv
    exact perform_execute (by decide) (perform_load hoperand)
  | _ => cases hop

theorem round_of_not_fetched (ht : m.traced = false) (ha : m.pc = a) (hb : m.code[a]? = some op.byte)
    (hop : fetches op) (hv : fetched op (numberAt m.code a) m = none) :
    perform (round (.float 0.0)) m = (.error (.fault (.indexRange .list)), m.counted) := by
  have hoperand := perform_operand_at ha
  rw [round_eq_execute ht ha hb]
  cases op with
  | push =>
    have hpooled : m.pooled (numberAt m.code a) = none := hv
    have heffect : perform (effect .push) m.counted =
        (.error (.fault (.indexRange .list)), m.counted) := by
      refine (perform_bind_of_ok _ hoperand).trans ?_
      refine (perform_bind_of_ok _ (r := get) rfl).trans ?_
      rw [pooled] at hpooled
      have hconstants : m.counted.constants = m.constants := rfl
      have hstrings : m.counted.strings = m.strings := rfl
      simp only [hconstants, hstrings, hpooled]
      rfl
    simp only [execute, opcode?_byte]
    exact perform_bind_of_error _ heffect
  | load => cases hv
  | _ => cases hop

theorem round_of_combined (ht : m.traced = false) (ha : m.pc = a) (hb : m.code[a]? = some op.byte)
    (hop : op = .add ∨ op = .mul) {x y : Value} {rest : List Value} (hs : m.stack = y :: x :: rest) :
    perform (round (.float 0.0)) m =
      match combined op x y with
      | .ok v => (.ok true, { m.counted with stack := v :: rest, pc := m.pc + 1 })
      | .error f => (.error (.fault f), { m.counted with stack := rest }) := by
  rw [round_eq_execute ht ha hb]
  have heffect : effect op = binary fun x y => calculate (combined op x y) := by
    rcases hop with rfl | rfl <;> rfl
  have hmore : op ≠ .finish := by rcases hop with rfl | rfl <;> decide
  cases hv : combined op x y with
  | ok v =>
    refine perform_execute hmore ?_
    rw [heffect]
    exact perform_binary hs fun m => perform_calculate hv
  | error f =>
    simp only [execute, opcode?_byte, heffect]
    refine perform_bind_of_error _ (perform_binary_error hs fun m => ?_)
    rw [hv]
    rfl

end Rounds

/-! ## Runs -/

/-- The exchange of the six bytes from `w` on does not matter to a round from here. -/
structure ClearOfExchange (w : Nat) (m : Machine) : Prop where
  /-- Rounds among these bytes are pushes, and there are two of them. -/
  enters : w ≤ m.pc.toNat → m.pc.toNat < w + 6 → (m.pc.toNat = w ∨ m.pc.toNat = w + 3) ∧
    fetchesAt m.code w ∧ fetchesAt m.code (w + 3)
  operand : ∀ op ∈ m.atHand, reads op → m.pc.toNat < w → m.pc.toNat + 2 < w
  leap : ∀ op ∈ m.atHand, leaps op m.stack → numberAt m.code m.pc.toNat ≠ w + 3
  commutes : m.pc.toNat = w + 6 → ∀ op ∈ m.atHand, ∀ x y rest, m.stack = y :: x :: rest →
    combined op x y = combined op y x

/-- Whether the two values on top of the stack, if there are two, are integers. -/
def intsOnTop : List Value → Bool
  | y :: x :: _ => x.int?.isSome && y.int?.isSome
  | _ => true

/-- Whether an exchange is found not to matter to a round from here. -/
def clearsExchange (w : Nat) (m : Machine) : Bool :=
  decide (w ≤ m.pc.toNat → m.pc.toNat < w + 6 → (m.pc.toNat = w ∨ m.pc.toNat = w + 3) ∧
    fetchesAt m.code w ∧ fetchesAt m.code (w + 3)) &&
  decide (∀ op ∈ m.atHand, reads op → m.pc.toNat < w → m.pc.toNat + 2 < w) &&
  decide (∀ op ∈ m.atHand, leaps op m.stack → numberAt m.code m.pc.toNat ≠ w + 3) &&
  (m.pc.toNat != w + 6 || intsOnTop m.stack)

theorem clearOfExchange_of_clears {m : Machine} (h : clearsExchange w m) : ClearOfExchange w m := by
  simp only [clearsExchange, Bool.and_eq_true, Bool.or_eq_true, decide_eq_true_eq, bne_iff_ne] at h
  obtain ⟨⟨⟨henters, hoperand⟩, hleap⟩, htop⟩ := h
  refine ⟨henters, hoperand, hleap, fun hpc op _ x y rest hs => ?_⟩
  have hints : intsOnTop m.stack := htop.resolve_left fun h => h hpc
  rw [hs, intsOnTop, Bool.and_eq_true] at hints
  exact combined_comm hints.1 hints.2 op

/-- If the bytes in front of `i` are exchanged, it does not matter to a round from here. -/
def SparedByExchange (i : Nat) (m : Machine) : Prop := exchanges m.code i → ClearOfExchange (i - 6) m

/-- Machines in code before and after the exchange. -/
structure BesideExchange (code : Array UInt8) (w : Nat) (m n : Machine) : Prop where
  untraced : m.traced = false
  untraced' : n.traced = false
  left : m.code = code
  right : n.code = exchangeAt code (w + 6)

/-- Such machines on their way. -/
inductive AcrossExchange (code : Array UInt8) (w : Nat) (m n : Machine) : Prop where
  /-- At the same place, which is not between the pushes. -/
  | aligned (h : BesideExchange code w m n) (hsame : SameContent m n) (a : Nat) (ha : m.pc = a)
    (ha' : n.pc = a) (hne : a ≠ w + 3)
  /-- Between the pushes: the one has made its first push, the other none yet. -/
  | half (h : BesideExchange code w m n) (op : Opcode) (hb : code[w]? = some op.byte)
    (hop : fetches op) (v : Value) (hv : fetched op (numberAt code w) n = some v)
    (hsame : SameContent m { n with stack := v :: n.stack }) (ha : m.pc = (w + 3 : Nat))
    (ha' : n.pc = w)
  /-- After the pushes, with the two values the other way round. -/
  | crossed (h : BesideExchange code w m n) (x y : Value) (rest : List Value)
    (hs : m.stack = y :: x :: rest) (hsame : SameContent { m with stack := x :: y :: rest } n)
    (ha : m.pc = (w + 6 : Nat)) (ha' : n.pc = (w + 6 : Nat))

theorem fetched_of_sameContent {op : Opcode} {k : Nat} {m n : Machine} (h : SameContent m n) :
    fetched op k m = fetched op k n :=
  h.look (fetched op k) fun _ => rfl

variable {m n : Machine}

namespace BesideExchange

/-- The second machine has the second push first. -/
theorem first (h : BesideExchange code w m n) (hex : exchanges code (w + 6)) :
    n.code[w]? = code[w + 3]? ∧ numberAt n.code w = numberAt code (w + 3) := by
  rw [h.right, getElem?_exchangeAt hex]
  refine ⟨congrArg (code[·]?) ?_, numberAt_exchangeAt hex ?_ ?_⟩ <;> unfold mirrored <;> grind

theorem second (h : BesideExchange code w m n) (hex : exchanges code (w + 6)) :
    n.code[w + 3]? = code[w]? ∧ numberAt n.code (w + 3) = numberAt code w := by
  rw [h.right, getElem?_exchangeAt hex]
  refine ⟨congrArg (code[·]?) ?_, numberAt_exchangeAt hex ?_ ?_⟩ <;> unfold mirrored <;> grind

theorem outside (h : BesideExchange code w m n) (hex : exchanges code (w + 6))
    (ha : a < w ∨ w + 6 ≤ a) : n.code[a]? = code[a]? := by
  rw [h.right, getElem?_exchangeAt hex]
  refine congrArg (code[·]?) ?_
  unfold mirrored
  grind

theorem numberAt_outside (h : BesideExchange code w m n) (hex : exchanges code (w + 6))
    (ha : a + 2 < w ∨ w + 6 ≤ a) : numberAt n.code a = numberAt code a := by
  rw [h.right]
  refine numberAt_exchangeAt hex ?_ ?_ <;> unfold mirrored <;> grind

theorem due (h : BesideExchange code w m n) (hex : exchanges code (w + 6)) (ha : n.pc = a)
    (hle : a ≤ w + 6) : n.pc < n.code.size := by
  have hsize := lt_size_of_exchanges hex
  rw [h.right, size_exchangeAt]
  omega

theorem push_left (h : BesideExchange code w m n) (v : Value) :
    BesideExchange code w (afterPush v m) n :=
  ⟨h.untraced, h.untraced', h.left, h.right⟩

theorem push_right (h : BesideExchange code w m n) (v : Value) :
    BesideExchange code w m (afterPush v n) :=
  ⟨h.untraced, h.untraced', h.left, h.right⟩

end BesideExchange

/-- Machines in front of the pushes: the one makes its first push, unless it fails; then so does the
other one, at its second push at the latest. -/
theorem kept_at_pushes (h : BesideExchange code w m n) (hex : exchanges code (w + 6))
    (hsame : SameContent m n) (ha : m.pc = w) (ha' : n.pc = w) (hclear : ClearOfExchange w m) :
    Kept (AcrossExchange code w) 2 n (perform (round (.float 0.0)) m) := by
  obtain ⟨-, hfirst, hsecond⟩ := hclear.enters (by omega) (by omega)
  rw [h.left] at hfirst hsecond
  obtain ⟨op, hb, hop⟩ := exists_op_of_fetchesAt hfirst
  obtain ⟨op', hb', hop'⟩ := exists_op_of_fetchesAt hsecond
  have hbyte : m.code[w]? = some op.byte := by rw [h.left, hb]
  cases hv : fetched op (numberAt code w) m with
  | some v =>
    rw [round_of_fetched h.untraced ha hbyte hop (by rw [h.left, hv])]
    rw [fetched_of_sameContent hsame] at hv
    refine .goes (fun hrest => ⟨_, by omega, hrest⟩) ?_
    refine .half (h.push_left v) op hb hop v hv ?_ (afterPush_pc ha) ha'
    rw [← hsame.stack]
    exact hsame.restack _
  | none =>
    rw [round_of_not_fetched h.untraced ha hbyte hop (by rw [h.left, hv])]
    rw [fetched_of_sameContent hsame] at hv
    obtain ⟨hn, hk⟩ := h.first hex
    obtain ⟨hn', hk'⟩ := h.second hex
    have hdue := h.due hex ha' (by omega)
    cases hv' : fetched op' (numberAt code (w + 3)) n with
    | none =>
      have hround := round_of_not_fetched h.untraced' ha' (hn.trans hb') hop' (by rw [hk, hv'])
      exact .fails (.fails hdue hround) (by omega) (.error _ _ ⟨rfl, hsame.restack []⟩)
    | some v' =>
      have hround := round_of_fetched h.untraced' ha' (hn.trans hb') hop' (by rw [hk, hv'])
      have hpc : (afterPush v' n).pc = (w + 3 : Nat) := afterPush_pc ha'
      have hround' := round_of_not_fetched (m := afterPush v' n) h.untraced' hpc (hn'.trans hb) hop
        ((congrArg (fetched op · _) hk').trans hv)
      have hdue' := (h.push_right v').due hex hpc (by omega)
      exact .fails (.goes hdue hround (.fails hdue' hround')) (by omega)
        (.error _ _ ⟨rfl, hsame.restack []⟩)

/-- Machines between the pushes: the one makes its second push, and the other one both, unless the
second push fails. -/
theorem kept_between_pushes {op : Opcode} {v : Value} (h : BesideExchange code w m n)
    (hex : exchanges code (w + 6)) (hb : code[w]? = some op.byte) (hop : fetches op)
    (hv : fetched op (numberAt code w) n = some v)
    (hsame : SameContent m { n with stack := v :: n.stack }) (ha : m.pc = (w + 3 : Nat))
    (ha' : n.pc = w) (hclear : ClearOfExchange w m) :
    Kept (AcrossExchange code w) 2 n (perform (round (.float 0.0)) m) := by
  obtain ⟨-, -, hsecond⟩ := hclear.enters (by omega) (by omega)
  rw [h.left] at hsecond
  obtain ⟨op', hb', hop'⟩ := exists_op_of_fetchesAt hsecond
  have hbyte : m.code[w + 3]? = some op'.byte := by rw [h.left, hb']
  have hfetched : fetched op' (numberAt code (w + 3)) m = fetched op' (numberAt code (w + 3)) n :=
    (fetched_of_sameContent hsame).trans rfl
  obtain ⟨hn, hk⟩ := h.first hex
  obtain ⟨hn', hk'⟩ := h.second hex
  have hdue := h.due hex ha' (by omega)
  cases hv' : fetched op' (numberAt code (w + 3)) n with
  | none =>
    rw [round_of_not_fetched h.untraced ha hbyte hop' (by rw [h.left, hfetched, hv'])]
    have hround := round_of_not_fetched h.untraced' ha' (hn.trans hb') hop' (by rw [hk, hv'])
    exact .fails (.fails hdue hround) (by omega) (.error _ _ ⟨rfl, hsame.restack []⟩)
  | some v' =>
    rw [round_of_fetched h.untraced ha hbyte hop' (by rw [h.left, hfetched, hv'])]
    have hround := round_of_fetched h.untraced' ha' (hn.trans hb') hop' (by rw [hk, hv'])
    have hpc : (afterPush v' n).pc = (w + 3 : Nat) := afterPush_pc ha'
    have hround' := round_of_fetched (m := afterPush v' n) h.untraced' hpc (hn'.trans hb) hop
      ((congrArg (fetched op · _) hk').trans hv)
    have hdue' := (h.push_right v').due hex hpc (by omega)
    refine .of_round hdue hround
      (.goes (fun hrest => ⟨_, Nat.le_refl _, .goes hdue' hround' hrest⟩) ?_)
    refine .crossed (((h.push_left v').push_right v').push_right v) v v' n.stack ?_ ?_
      (afterPush_pc ha) (afterPush_pc hpc)
    · rw [afterPush, hsame.stack]
    · exact hsame.restack _

/-- Machines after the pushes come to the same value. -/
theorem kept_at_sum {x y : Value} {rest : List Value} (h : BesideExchange code w m n)
    (hex : exchanges code (w + 6)) (hs : m.stack = y :: x :: rest)
    (hsame : SameContent { m with stack := x :: y :: rest } n) (ha : m.pc = (w + 6 : Nat))
    (ha' : n.pc = (w + 6 : Nat)) (hclear : ClearOfExchange w m) :
    Kept (AcrossExchange code w) 2 n (perform (round (.float 0.0)) m) := by
  obtain ⟨op, hb, hop⟩ := exists_op_of_exchanges hex
  have hbyte : m.code[w + 6]? = some op.byte := by rw [h.left, hb]
  have hbyte' : n.code[w + 6]? = some op.byte := by rw [h.outside hex (by omega), hb]
  have hhand : op ∈ m.atHand := by
    rw [atHand, byteAt?_of_getElem? ha hbyte]
    exact Opcode.ofByte?_byte op
  have hswap : combined op x y = combined op y x := hclear.commutes (by omega) op hhand x y rest hs
  have hround := round_of_combined h.untraced' ha' hbyte' hop hsame.stack.symm
  have hdue := h.due hex ha' (by omega)
  rw [round_of_combined h.untraced ha hbyte hop hs]
  rw [← hswap] at hround
  cases hv : combined op x y with
  | error f =>
    rw [hv] at hround
    exact .fails (.fails hdue hround) (by omega) (.error _ _ ⟨rfl, hsame.restack []⟩)
  | ok v =>
    rw [hv] at hround
    refine .goes (fun hrest => ⟨_, by omega, .goes hdue hround hrest⟩) ?_
    refine .aligned ⟨h.untraced, h.untraced', h.left, h.right⟩ (hsame.restack _) (w + 7) ?_ ?_
      (by omega)
    · show m.pc + 1 = _
      omega
    · show n.pc + 1 = _
      omega

theorem numberAt_apart {op : Opcode} (h : BesideExchange code w m n) (hex : exchanges code (w + 6))
    (ha : m.pc = a) (hapart : a < w ∨ w + 6 ≤ a) (hclear : ClearOfExchange w m)
    (hop : op ∈ m.atHand) (hreads : reads op) : numberAt m.code a = numberAt n.code a := by
  have hclose := hclear.operand op hop hreads
  rw [h.left, h.numberAt_outside hex (by omega)]

/-- An operation apart from the pushes leads to the same place in both, and not between them. -/
theorem exists_destination_apart {op : Opcode} (h : BesideExchange code w m n)
    (hex : exchanges code (w + 6)) (hsame : SameContent m n) (ha : m.pc = a) (ha' : n.pc = a)
    (hapart : a < w ∨ w + 6 ≤ a) (hclear : ClearOfExchange w m) (hop : op ∈ m.atHand)
    (hmore : op ≠ .finish) :
    ∃ a' : Nat, destination op m = a' ∧ destination op n = a' ∧ a' ≠ w + 3 := by
  unfold destination
  rw [← hsame.stack, operandOf_eq ha, operandOf_eq ha']
  by_cases hleaps : leaps op m.stack
  · have hne := hclear.leap op hop hleaps
    rw [ha, Int.toNat_natCast] at hne
    have hnumber := numberAt_apart h hex ha hapart hclear hop (reads_of_leaps hleaps)
    rw [if_pos hleaps, if_pos hleaps, ← hnumber]
    exact ⟨numberAt m.code a, rfl, rfl, hne⟩
  · rw [if_neg hleaps, if_neg hleaps, stride_eq hmore, ha, ha']
    by_cases hreads : reads op
    · have hclose := hclear.operand op hop hreads
      rw [if_pos hreads]
      exact ⟨a + 3, by omega, by omega, by omega⟩
    · rw [if_neg hreads]
      exact ⟨a + 1, by omega, by omega, by omega⟩

/-- Machines apart from the pushes make the same round. -/
theorem kept_apart (h : BesideExchange code w m n) (hex : exchanges code (w + 6))
    (hsame : SameContent m n) (ha : m.pc = a) (ha' : n.pc = a) (hlt : a < code.size)
    (hapart : a < w ∨ w + 6 ≤ a) (hclear : ClearOfExchange w m) :
    Kept (AcrossExchange code w) 2 n (perform (round (.float 0.0)) m) := by
  have hb : m.byteAt? m.pc = some code[a] :=
    byteAt?_of_getElem? ha (by rw [h.left, Array.getElem?_eq_getElem hlt])
  have hb' : n.byteAt? n.pc = some code[a] :=
    byteAt?_of_getElem? ha' (by rw [h.outside hex hapart, Array.getElem?_eq_getElem hlt])
  have hdue : n.pc < n.code.size := by
    rw [h.right, size_exchangeAt]
    omega
  have hhand {op : Opcode} (hop : op ∈ Opcode.ofByte? code[a]) : op ∈ m.atHand := by
    rw [atHand, hb]
    exact hop
  refine .mono (Nat.le_succ 1) (kept_of_content hsame h.untraced hb hb' hdue ?_ ?_ ?_)
  · intro op hop hreads
    rw [operandOf_eq ha, operandOf_eq ha', numberAt_apart h hex ha hapart hclear (hhand hop) hreads]
  · exact fun _ => ha.trans ha'.symm
  · intro op hop hmore m' n' hsame' hm hn
    obtain ⟨a', hd, hd', hne⟩ :=
      exists_destination_apart h hex hsame ha ha' hapart hclear (hhand hop) hmore
    exact .aligned ⟨hm.untraced, hn.untraced, hm.code.trans h.left, hn.code.trans h.right⟩ hsame' a'
      (hm.pc.trans hd) (hn.pc.trans hd') hne

/-- Code with an exchange made in it runs in step with the code. -/
theorem inStep_exchange (hex : exchanges code (w + 6)) :
    InStep (SparedByExchange (w + 6)) (AcrossExchange code w) where
  ended {m n} hR hend := by
    have hsize := lt_size_of_exchanges hex
    cases hR with
    | aligned h hsame a ha ha' =>
      rw [h.left] at hend
      refine ⟨?_, hsame⟩
      rw [h.right, size_exchangeAt]
      omega
    | half h =>
      rw [h.left] at hend
      omega
    | crossed h =>
      rw [h.left] at hend
      omega
  round {m n} hR hdue hspared := by
    have hclear (h : BesideExchange code w m n) : ClearOfExchange w m := hspared (by rw [h.left, hex])
    cases hR with
    | aligned h hsame a ha ha' hne =>
      have hlt : a < code.size := by
        rw [h.left] at hdue
        omega
      by_cases hinside : w ≤ a ∧ a < w + 6
      · obtain ⟨hplace, -⟩ := (hclear h).enters (by omega) (by omega)
        obtain rfl : a = w := by omega
        exact kept_at_pushes h hex hsame ha ha' (hclear h)
      · exact kept_apart h hex hsame ha ha' hlt (by omega) (hclear h)
    | half h op hb hop v hv hsame ha ha' =>
      exact kept_between_pushes h hex hb hop hv hsame ha ha' (hclear h)
    | crossed h x y rest hs hsame ha ha' => exact kept_at_sum h hex hs hsame ha ha' (hclear h)

end Birokrasi.Disguise
