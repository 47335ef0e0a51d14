import Birokrasi.Value.Number

/-!
# Values

The values of the languages. Lists and records may be held directly or by reference to a cell of a
store; a value held directly is a finite tree. `loop` stands, in a tree that shows the contents of a
store, for a container met again inside itself.
-/

namespace Birokrasi

inductive Value where
  | none
  | bool (b : Bool)
  | int (n : Int)
  | float (x : Float)
  | text (s : String)
  | list (items : List Value)
  | tuple (items : List Value)
  | record (entries : List (Value × Value))
  | listRef (cell : Nat)
  | recordRef (cell : Nat)
  | loop (kind : Kind)

namespace Value

instance : Inhabited Value := ⟨.none⟩

def kind : Value → Kind
  | .none => .none
  | .bool _ => .bool
  | .int _ => .int
  | .float _ => .float
  | .text _ => .text
  | .list _ | .listRef _ => .list
  | .tuple _ => .tuple
  | .record _ | .recordRef _ => .record
  | .loop k => k

/-- The number that a value is. The truth values count as one and zero. -/
def number? : Value → Option Number
  | .bool b => some (.int (if b then 1 else 0))
  | .int n => some (.int n)
  | .float x => some (.float x)
  | _ => Option.none

def int? : Value → Option Int
  | .bool b => some (if b then 1 else 0)
  | .int n => some n
  | _ => Option.none

def ofNumber : Number → Value
  | .int n => .int n
  | .float x => .float x

def truthy : Value → Bool
  | .none => false
  | .bool b => b
  | .int n => n != 0
  | .float x => x != 0.0
  | .text s => s != ""
  | .list items => !items.isEmpty
  | .tuple items => !items.isEmpty
  | .record entries => !entries.isEmpty
  | _ => true

/-! ## Equality -/

mutual

/-- Equality of values. Numbers are compared by value across their kinds. A double that is no number
differs from itself, but not `inside` a container. -/
def equalAs (inside : Bool) : Value → Value → Bool
  | .none, .none => true
  | .text s, .text t => s == t
  | .list xs, .list ys => equalItems xs ys
  | .tuple xs, .tuple ys => equalItems xs ys
  | .record xs, .record ys => xs.length == ys.length && entriesWithin xs ys
  | .listRef i, .listRef j => i == j
  | .recordRef i, .recordRef j => i == j
  | .loop _, .loop _ => true
  | .float x, .float y =>
    if inside then x == y || (x.isNaN && y.isNaN) else (Number.float x).equal (.float y)
  | a, b =>
    match a.number?, b.number? with
    | some m, some n => m.equal n
    | _, _ => false
termination_by structural a => a

def equalItems : List Value → List Value → Bool
  | [], [] => true
  | x :: xs, y :: ys => equalAs true x y && equalItems xs ys
  | _, _ => false
termination_by structural xs => xs

def entriesWithin : List (Value × Value) → List (Value × Value) → Bool
  | [], _ => true
  | (k, v) :: rest, other =>
    (other.any fun e => equalAs true k e.1 && equalAs true v e.2) && entriesWithin rest other
termination_by structural xs => xs

end

def equal (a b : Value) : Bool := equalAs false a b

/-- Equality of two values inside containers, where everything is equal to itself. -/
def same (a b : Value) : Bool := equalAs true a b

/-! ## Text -/

mutual

def quoted : Value → String
  | .none => "None"
  | .bool b => if b then "True" else "False"
  | .int n => Decimal.intText n
  | .float x => Decimal.shown x
  | .text s => Text.quoted s
  | .list items => "[" ++ ", ".intercalate (quotedItems items) ++ "]"
  | .tuple items =>
    match quotedItems items with
    | [item] => "(" ++ item ++ ",)"
    | texts => "(" ++ ", ".intercalate texts ++ ")"
  | .record entries => "\x7b" ++ ", ".intercalate (quotedEntries entries) ++ "\x7d"
  | .listRef _ => "[...]"
  | .recordRef _ => "\x7b...\x7d"
  | .loop .record => "\x7b...\x7d"
  | .loop _ => "[...]"

def quotedItems : List Value → List String
  | [] => []
  | x :: xs => quoted x :: quotedItems xs

def quotedEntries : List (Value × Value) → List String
  | [] => []
  | (k, v) :: rest => (quoted k ++ ": " ++ quoted v) :: quotedEntries rest

end

/-- The text of a value on its own: a text is itself. -/
def shown : Value → String
  | .text s => s
  | v => v.quoted

end Value

end Birokrasi
