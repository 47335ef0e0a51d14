import Birokrasi.Value.Arithmetic

/-!
# Formulas: syntax and value

Arithmetic over numbers, texts and truth values, with comparisons that may be chained and with
connectives that give back one of their operands. A formula without a value has none for whatever
reason: the languages never tell the reasons apart.

The classic language hands its expressions to the evaluator of its host, of which this is a fragment: a
formula has no names, calls, attributes, containers, operators on bits or conditional expressions, and a
text that would be one of these has no value here.
-/

namespace Birokrasi.Classic

inductive Operator where
  | add
  | sub
  | mul
  | div
  | floorDiv
  | mod
  | pow

inductive Relation where
  | eq
  | ne
  | lt
  | gt
  | le
  | ge

inductive Formula where
  | constant (v : Value)
  | negative (f : Formula)
  | positive (f : Formula)
  | inverse (f : Formula)
  | binary (op : Operator) (left right : Formula)
  /-- A comparison of neighbours, all of which have to hold. -/
  | chain (first : Formula) (rest : List (Relation × Formula))
  | both (left right : Formula)
  | either (left right : Formula)

/-! ## Powers -/

/-- The most bits that a power of integers may have. -/
def powerLimit : Nat := 0x8000000

/-- A power of doubles; `none` where it is no double. -/
def floatPower? (x y : Float) : Option Float :=
  if x == 0.0 && y < 0.0 then none
  else if x < 0.0 && y.isFinite && Decimal.floor y != y then none
  else
    let r := x.pow y
    if r.isInf && x.isFinite && y.isFinite then none else some r

/-- A power. Of integers it is an integer, unless the exponent is negative. -/
def power? (a b : Value) : Option Value :=
  match a.number?, b.number? with
  | some (.int m), some (.int n) =>
    if 0 ≤ n then
      if powerLimit < (m.natAbs.log2 + 1) * n.toNat && 1 < m.natAbs then none
      else some (.int (m.pow n.toNat))
    else do
      let x ← (Number.floatOfInt m).toOption
      let y ← (Number.floatOfInt n).toOption
      return .float (← floatPower? x y)
  | some x, some y => do
    return .float (← floatPower? (← x.toFloat.toOption) (← y.toFloat.toOption))
  | _, _ => none

/-! ## Values -/

def Operator.apply? (op : Operator) (a b : Value) : Option Value :=
  match op with
  | add => (a.add b).toOption
  | sub => (a.sub b).toOption
  | mul => (a.mul b).toOption
  | div => (a.div b).toOption
  | floorDiv => (a.floorDiv b).toOption
  | mod => (a.mod b).toOption
  | pow => power? a b

def Relation.holds? (r : Relation) (a b : Value) : Option Bool :=
  match r with
  | eq => some (a.equal b)
  | ne => some !(a.equal b)
  | lt => (a.less b).toOption
  | gt => (a.greater b).toOption
  | le => (a.lessEq b).toOption
  | ge => (a.greaterEq b).toOption

mutual

def Formula.value? : Formula → Option Value
  | .constant v => some v
  | .negative f => do
    match ← f.value? with
    | .float x => return .float (-x)
    | v => (Value.sub (.int 0) v).toOption
  | .positive f => do
    match ← f.value? with
    | .float x => return .float x
    | v => (Value.add (.int 0) v).toOption
  | .inverse f => do return .bool !(← f.value?).truthy
  | .binary op l r => do op.apply? (← l.value?) (← r.value?)
  | .chain first rest => do chainValue? (← first.value?) rest
  | .both l r => do
    let v ← l.value?
    if v.truthy then r.value? else return v
  | .either l r => do
    let v ← l.value?
    if v.truthy then return v else r.value?

/-- The value of a chain of comparisons that starts from a value: nothing is looked at after one that
does not hold. -/
def chainValue? (left : Value) : List (Relation × Formula) → Option Value
  | [] => some (.bool true)
  | (r, f) :: rest => do
    let right ← f.value?
    if (← r.holds? left right) then chainValue? right rest else return .bool false

end

end Birokrasi.Classic
