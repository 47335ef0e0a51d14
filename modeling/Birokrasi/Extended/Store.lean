import Birokrasi.Value.Arithmetic

/-!
# Shared containers

Lists and records of the extended language are shared: a value refers to a cell of a store, and a
change of the cell is seen by all that refer to it. `Store.view` shows what a value holds as a tree,
in which a container met again inside itself is marked.
-/

namespace Birokrasi.Extended

inductive Cell where
  | list (items : Array Value)
  | record (entries : List (Value × Value))

abbrev Store := Array Cell

namespace Store

def items (s : Store) (cell : Nat) : Array Value :=
  match s[cell]? with
  | some (.list items) => items
  | _ => #[]

def entries (s : Store) (cell : Nat) : List (Value × Value) :=
  match s[cell]? with
  | some (.record entries) => entries
  | _ => []

def newList (s : Store) (items : Array Value) : Value × Store := (.listRef s.size, s.push (.list items))

def newRecord (s : Store) (entries : List (Value × Value)) : Value × Store :=
  (.recordRef s.size, s.push (.record entries))

def modifyList (s : Store) (cell : Nat) (f : Array Value → Array Value) : Store :=
  s.modify cell fun
    | .list items => .list (f items)
    | other => other

/-- The entries of a record with a value for a key. A key that is there keeps its place. -/
def putEntry (key value : Value) : List (Value × Value) → List (Value × Value)
  | [] => [(key, value)]
  | (k, v) :: rest => if k.same key then (k, value) :: rest else (k, v) :: putEntry key value rest

def entry? (s : Store) (cell : Nat) (key : String) : Option Value :=
  (s.entries cell).findSome? fun e => if e.1.same (.text key) then some e.2 else none

mutual

/-- What a value holds, inside the containers of `path`. Containers lie inside one another to a depth
of `depth` at most. -/
def viewWithin (s : Store) (depth : Nat) (path : List Nat) : Value → Value
  | .listRef cell =>
    if path.contains cell then .loop .list
    else
      match depth with
      | 0 => .loop .list
      | depth + 1 => .list (viewItems s depth (cell :: path) (s.items cell).toList)
  | .recordRef cell =>
    if path.contains cell then .loop .record
    else
      match depth with
      | 0 => .loop .record
      | depth + 1 => .record (viewEntries s depth (cell :: path) (s.entries cell))
  | .list items => .list (viewItems s depth path items)
  | .tuple items => .tuple (viewItems s depth path items)
  | .record entries => .record (viewEntries s depth path entries)
  | v => v
termination_by v => (depth, sizeOf v)

def viewItems (s : Store) (depth : Nat) (path : List Nat) : List Value → List Value
  | [] => []
  | v :: rest => viewWithin s depth path v :: viewItems s depth path rest
termination_by vs => (depth, sizeOf vs)

def viewEntries (s : Store) (depth : Nat) (path : List Nat) :
    List (Value × Value) → List (Value × Value)
  | [] => []
  | (k, v) :: rest =>
    (viewWithin s depth path k, viewWithin s depth path v) :: viewEntries s depth path rest
termination_by es => (depth, sizeOf es)

end

/-- What a value holds. No container lies inside more containers than there are cells. -/
def view (s : Store) (v : Value) : Value := viewWithin s (s.size + 1) [] v

mutual

def intern (s : Store) : Value → Value × Store
  | .list items =>
    let (items, s) := internItems s items
    s.newList items.toArray
  | .tuple items =>
    let (items, s) := internItems s items
    (.tuple items, s)
  | .record entries =>
    let (entries, s) := internEntries s entries
    s.newRecord entries
  | v => (v, s)

def internItems (s : Store) : List Value → List Value × Store
  | [] => ([], s)
  | v :: rest =>
    let (v, s) := intern s v
    let (rest, s) := internItems s rest
    (v :: rest, s)

def internEntries (s : Store) : List (Value × Value) → List (Value × Value) × Store
  | [] => ([], s)
  | (k, v) :: rest =>
    let (v, s) := intern s v
    let (rest, s) := internEntries s rest
    ((k, v) :: rest, s)

end

/-! ## Operations that look into cells -/

def equal (s : Store) (a b : Value) : Bool := (s.view a).equal (s.view b)

/-- The sum; of two lists it is a new list. -/
def add (s : Store) (a b : Value) : Except Fault (Value × Store) :=
  match a, b with
  | .listRef i, .listRef j => .ok (s.newList (s.items i ++ s.items j))
  | a, b => do return (← a.add b, s)

/-- Whether a value counts as true: an empty container does not, nor does the word for false. -/
def truthy (s : Store) : Value → Bool
  | .text t => t != "" && t != "salah"
  | .listRef cell => !(s.items cell).isEmpty
  | .recordRef cell => !(s.entries cell).isEmpty
  | .tuple _ => true
  | v => v.truthy

end Store

end Birokrasi.Extended
