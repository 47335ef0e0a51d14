import Birokrasi.Value.Basic

/-!
# Operations on values

Sum, difference, product, quotient and order of values of any kind: numbers are calculated with,
texts, lists and tuples are joined and repeated, and every other combination is a fault that names
the two kinds.
-/

namespace Birokrasi.Value

/-- An operation on numbers; other kinds are a fault that names the operator. -/
def numeric (op : String) (f : Number → Number → Except Fault Number) (a b : Value) :
    Except Fault Value :=
  match a.number?, b.number? with
  | some m, some n => return ofNumber (← f m n)
  | _, _ => .error (.operands op a.kind b.kind)

def add : Value → Value → Except Fault Value
  | .text s, .text t => .ok (.text (s ++ t))
  | .list xs, .list ys => .ok (.list (xs ++ ys))
  | .tuple xs, .tuple ys => .ok (.tuple (xs ++ ys))
  | a, b =>
    match a.kind with
    | .text | .list | .tuple => .error (.concatenation a.kind b.kind)
    | _ => numeric "+" Number.add a b

def sub : Value → Value → Except Fault Value := numeric "-" Number.sub

def div : Value → Value → Except Fault Value := numeric "/" Number.div

def floorDiv : Value → Value → Except Fault Value := numeric "//" Number.floorDiv

/-- The remainder. A text on the left is a form that takes no values. -/
def mod (a b : Value) : Except Fault Value :=
  match a with
  | .text _ => .error .unusedArguments
  | _ => numeric "%" Number.mod a b

/-- The most items that a repeated sequence may have. -/
def repetitionLimit : Nat := 0x400000000

def repetitions (length : Nat) (count : Value) : Except Fault Nat :=
  match count.int? with
  | Option.none => .error (.repetition count.kind)
  | some n =>
    if 0x8000000000000000 ≤ n || n < -0x8000000000000000 then .error .repetitionTooLong
    else if repetitionLimit < n.toNat * length then .error .outOfMemory
    else .ok (if length = 0 then 0 else n.toNat)

/-- A sequence repeated; `none` if the value is no sequence. -/
def repeated? : (sequence count : Value) → Option (Except Fault Value)
  | .text s, count => some do
    let n ← repetitions s.length count
    return .text (String.join (List.replicate n s))
  | .list xs, count => some do return .list (List.replicate (← repetitions xs.length count) xs).flatten
  | .tuple xs, count => some do
    return .tuple (List.replicate (← repetitions xs.length count) xs).flatten
  | .listRef _, count => some do return .list (List.replicate (← repetitions 1 count) .none)
  | _, _ => Option.none

def mul (a b : Value) : Except Fault Value :=
  match repeated? a b with
  | some r => r
  | Option.none =>
    match repeated? b a with
    | some r => r
    | Option.none => numeric "*" Number.mul a b

/-! ## Order -/

inductive Comparison where
  | less
  | greater
  | lessEq
  | greaterEq

def Comparison.sign : Comparison → String
  | .less => "<"
  | .greater => ">"
  | .lessEq => "<="
  | .greaterEq => ">="

def Comparison.holds : Comparison → Ordering → Bool
  | .less, o => o == .lt
  | .greater, o => o == .gt
  | .lessEq, o => o != .gt
  | .greaterEq, o => o != .lt

/-- A comparison of numbers; it fails if one is no number. -/
def Comparison.onNumbers (c : Comparison) (m n : Number) : Bool :=
  match m.compare? n with
  | some o => c.holds o
  | Option.none => false

mutual

/-- A comparison of values. Sequences are compared at the first place where they differ. -/
def ordered (c : Comparison) : Value → Value → Except Fault Bool
  | .text s, .text t => .ok (c.holds (compare s t))
  | .list xs, .list ys => orderedItems c xs ys
  | .tuple xs, .tuple ys => orderedItems c xs ys
  | a, b =>
    match a.number?, b.number? with
    | some m, some n => .ok (c.onNumbers m n)
    | _, _ => .error (.order c.sign a.kind b.kind)

def orderedItems (c : Comparison) : List Value → List Value → Except Fault Bool
  | [], [] => .ok (c.holds .eq)
  | [], _ :: _ => .ok (c.holds .lt)
  | _ :: _, [] => .ok (c.holds .gt)
  | x :: xs, y :: ys => if same x y then orderedItems c xs ys else ordered c x y

end

def less : Value → Value → Except Fault Bool := ordered .less

def greater : Value → Value → Except Fault Bool := ordered .greater

def greaterEq : Value → Value → Except Fault Bool := ordered .greaterEq

def lessEq : Value → Value → Except Fault Bool := ordered .lessEq

def length : Value → Except Fault Nat
  | .text s => .ok s.length
  | .list items => .ok items.length
  | .tuple items => .ok items.length
  | .record entries => .ok entries.length
  | v => .error (.noLength v.kind)

end Birokrasi.Value
