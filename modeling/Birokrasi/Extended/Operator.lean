import Birokrasi.Extended.State

/-!
# The extended language: operators

The operators of expressions, in the order in which `_eval_expression` looks for them.
-/

namespace Birokrasi.Extended

inductive Operator where
  | equal
  | notEqual
  | lessEq
  | greaterEq
  | less
  | greater
  | and
  | or
  | plus
  | minus
  | times
  | over
  | modulo
  deriving DecidableEq

namespace Operator

def sign : Operator → String
  | .equal => "=="
  | .notEqual => "!="
  | .lessEq => "<="
  | .greaterEq => ">="
  | .less => "<"
  | .greater => ">"
  | .and => " dan "
  | .or => " atau "
  | .plus => "+"
  | .minus => "-"
  | .times => "*"
  | .over => "/"
  | .modulo => "%"

/-- The operators, those that are looked for first in front. -/
def all : List Operator :=
  [.equal, .notEqual, .lessEq, .greaterEq, .less, .greater, .and, .or, .plus, .minus, .times, .over,
    .modulo]

def ofSign? (text : String) : Option Operator := all.find? (·.sign = text)

theorem sign_toList_ne_nil (op : Operator) : op.sign.toList ≠ [] := by cases op <;> decide

def onFloats (f : Number → Number → Except Fault Number) (l r : Value) : Run Value := do
  let x ← floatOf l
  let y ← floatOf r
  return .ofNumber (← ofFault (f (.float x) (.float y)))

def comparing (c : Value.Comparison) (l r : Value) : Run Value := do
  let x ← floatOf l
  let y ← floatOf r
  return .bool (c.onNumbers (.float x) (.float y))

/-- The value of an operation. A sum is that of the values themselves; all other arithmetic is done
with doubles. -/
def apply (op : Operator) (l r : Value) : Run Value := do
  let store := (← get).store
  match op with
  | .equal => return .bool (store.equal l r)
  | .notEqual => return .bool (!store.equal l r)
  | .lessEq => comparing .lessEq l r
  | .greaterEq => comparing .greaterEq l r
  | .less => comparing .less l r
  | .greater => comparing .greater l r
  | .and => return .bool (store.truthy l && store.truthy r)
  | .or => return .bool (store.truthy l || store.truthy r)
  | .plus =>
    let (v, store) ← ofFault (store.add l r)
    modify fun s => { s with store }
    return v
  | .minus => onFloats Number.sub l r
  | .times => onFloats Number.mul l r
  | .over => onFloats Number.div l r
  | .modulo => onFloats Number.mod l r

end Operator

end Birokrasi.Extended
