import Birokrasi.Extended.Operator
import Birokrasi.Extended.Pattern

/-!
# The extended language: expressions

An expression is taken by `_eval_expression` for the first of these that it looks like: a quoted text, a
word for a truth value or for nothing, a list, a record, a call, an access to a container, a number, a
name, or two expressions around an operator. The parts of an expression are shorter than it, so that
evaluation ends but for the functions that it calls.
-/

namespace Birokrasi.Extended

open Birokrasi.Text

abbrev Caller := String → List Value → Run Value

/-! ## Forms -/

inductive Literal where
  | value (v : Value)
  | list (items : List (List Char))
  | record (pairs : List (List Char))

def literal? (e : List Char) : Option Literal :=
  match between? '"' '"' e, between? '\'' '\'' e with
  | some t, _ | none, some t => some (.value (.text (String.ofList t)))
  | none, none =>
    if e = "benar".toList then some (.value (.bool true))
    else if e = "salah".toList then some (.value (.bool false))
    else if e = "kosong".toList then some (.value .none)
    else
      match between? '[' ']' e, between? '\x7b' '\x7d' e with
      | some inner, _ => some (.list (splitArguments (trim inner)))
      | none, some inner => some (.record (splitArguments (trim inner)))
      | none, none => none

inductive Builtin where
  | length
  | kind
  | number
  | text
  | append
  | remove
  deriving DecidableEq

namespace Builtin

def name : Builtin → String
  | .length => "panjang"
  | .kind => "tipe"
  | .number => "angka"
  | .text => "teks"
  | .append => "tambahArray"
  | .remove => "hapusArray"

def all : List Builtin := [.length, .kind, .number, .text, .append, .remove]

def ofName? (text : String) : Option Builtin := all.find? (·.name = text)

def arity : Builtin → Nat
  | .append | .remove => 2
  | _ => 1

def lengthOf (s : Store) : Value → Option Nat
  | .text t => some t.length
  | .listRef cell => some (s.items cell).size
  | .recordRef cell => some (s.entries cell).length
  | _ => none

def itemAt (items : Array Value) (index : Int) : Run Value :=
  match if index < 0 then none else items[index.toNat]? with
  | some v => pure v
  | none => throw (.indexOutside index)

def apply (b : Builtin) (args : List Value) : Run Value := do
  match b, args with
  | .length, [v] =>
    match lengthOf (← get).store v with
    | some n => return .int n
    | none => throw .lengthKind
  | .kind, [v] => return .text v.kind.name
  | .number, [v] => return .float (← floatOf v)
  | .text, [v] => return .text (← textOf v)
  | .append, [.listRef cell, v] =>
    modify fun s => { s with store := s.store.modifyList cell (·.push v) }
    return .listRef cell
  | .remove, [.listRef cell, v] =>
    let index ← indexOf v
    let item ← itemAt ((← get).store.items cell) index
    modify fun s => { s with store := s.store.modifyList cell (·.eraseIdxIfInBounds index.toNat) }
    return item
  | .append, [_, _] | .remove, [_, _] => throw .firstNotArray
  | b, _ => throw (.builtinArguments b.name b.arity)

end Builtin

inductive Callee where
  | builtin (b : Builtin)
  | function (name : String)

/-- What a name of a call stands for, where `known` are the functions of the program. -/
def callee? (known : String → Bool) (name : String) : Option Callee :=
  match Builtin.ofName? name with
  | some b => some (.builtin b)
  | none => if known name then some (.function name) else none

def callHead? (e : List Char) : Option (List Char × List Char) :=
  if e.getLast? = some ')' then
    match word? e with
    | some (name, '(' :: rest) => some (name, rest)
    | _ => none
  else none

/-- The call that a trimmed text is: what is called and the texts of the arguments. A call without
its closing parenthesis is a failure, whatever it calls. -/
def call? (known : String → Bool) (e : List Char) :
    Except Failure (Option (Callee × List (List Char))) :=
  match callHead? e with
  | none => .ok none
  | some (name, rest) =>
    match uptoClosing none 0 rest with
    | none => .error (.unclosed (String.ofList e))
    | some args =>
      .ok ((callee? known (String.ofList name)).map fun c => (c, splitArguments args))

def number? (e : List Char) : Option Value :=
  if e.contains '.' then (Decimal.readFloat? e).map .float
  else (Decimal.readInt e).toOption.map .int

def isName (e : List Char) : Bool :=
  match e with
  | [] => false
  | c :: rest => (c.isAlpha || c = '_') && rest.all isWord

/-- The two sides of an operator in an expression. A minus at the front is a sign. -/
def Operator.sides? (op : Operator) (e : List Char) : Option (List Char × List Char) :=
  if op = .minus && e.head? = some '-' then none else cut? op.sign.toList e

def operation? (e : List Char) : Option (Operator × List Char × List Char) :=
  Operator.all.findSome? fun op => (op.sides? e).map fun sides => (op, sides)

/-- What an expression can be recognised as after calls. -/
inductive Compound where
  | access (name : String) (key : List Char)
  | value (v : Value)
  | name (name : String)
  | operation (op : Operator) (left right : List Char)
  | unreadable

def compound (e : List Char) : Compound :=
  match indexed? e with
  | some (name, key) => .access (String.ofList name) key
  | none =>
    match number? e with
    | some v => .value v
    | none =>
      if isName e then .name (String.ofList e)
      else
        match operation? e with
        | some (op, left, right) => .operation op left right
        | none => .unreadable

/-! ## Parts are shorter -/

theorem length_lt_of_literal?_list {e : List Char} {items : List (List Char)}
    (h : literal? e = some (.list items)) {p : List Char} (hp : p ∈ items) :
    p.length < e.length := by
  simp only [literal?] at h
  repeat' split at h
  all_goals try simp at h
  next inner hi =>
    subst h
    have := length_splitArguments_le hp
    have := length_trim_le inner
    have := length_between?_lt hi
    omega

theorem length_lt_of_literal?_record {e : List Char} {pairs : List (List Char)}
    (h : literal? e = some (.record pairs)) {p : List Char} (hp : p ∈ pairs) :
    p.length < e.length := by
  simp only [literal?] at h
  repeat' split at h
  all_goals try simp at h
  next inner _ hi =>
    subst h
    have := length_splitArguments_le hp
    have := length_trim_le inner
    have := length_between?_lt hi
    omega

theorem length_callHead?_lt {e name rest : List Char} (h : callHead? e = some (name, rest)) :
    rest.length < e.length := by
  simp only [callHead?] at h
  split at h
  · split at h
    next w r hw =>
      simp only [Option.some.injEq, Prod.mk.injEq] at h
      obtain ⟨rfl, rfl⟩ := h
      have := length_word? hw
      simp only [List.length_cons] at this
      omega
    next => simp at h
  · simp at h

theorem length_lt_of_call? {known : String → Bool} {e : List Char} {c : Callee}
    {args : List (List Char)} (h : call? known e = .ok (some (c, args))) {p : List Char}
    (hp : p ∈ args) : p.length < e.length := by
  simp only [call?] at h
  split at h
  · simp at h
  next name rest hr =>
    split at h
    · simp at h
    next a ha =>
      simp only [Except.ok.injEq, Option.map_eq_some_iff, Prod.mk.injEq] at h
      obtain ⟨_, _, _, rfl⟩ := h
      have := length_splitArguments_le hp
      have := length_uptoClosing ha
      have := length_callHead?_lt hr
      omega

theorem length_lt_of_operation? {e left right : List Char} {op : Operator}
    (h : operation? e = some (op, left, right)) :
    left.length < e.length ∧ right.length < e.length := by
  obtain ⟨op', _, h⟩ := List.exists_of_findSome?_eq_some h
  obtain ⟨sides, hs, he⟩ := Option.map_eq_some_iff.1 h
  simp only [Prod.mk.injEq] at he
  obtain ⟨rfl, rfl⟩ := he
  simp only [Operator.sides?] at hs
  split at hs
  · simp at hs
  · exact length_cut?_lt hs op'.sign_toList_ne_nil

theorem length_lt_of_compound_access {e key : List Char} {name : String}
    (h : compound e = .access name key) : key.length < e.length := by
  simp only [compound] at h
  repeat' split at h
  all_goals try simp at h
  next hi =>
    obtain ⟨_, rfl⟩ := h
    exact length_indexed?_lt hi

theorem length_lt_of_compound_operation {e left right : List Char} {op : Operator}
    (h : compound e = .operation op left right) :
    left.length < e.length ∧ right.length < e.length := by
  simp only [compound] at h
  repeat' split at h
  all_goals try simp at h
  next ho =>
    obtain ⟨rfl, rfl, rfl⟩ := h
    exact length_lt_of_operation? ho

/-! ## Evaluation -/

def access (name : String) (container key : Value) : Run Value := do
  match container with
  | .listRef cell =>
    let index ← indexOf key
    Builtin.itemAt ((← get).store.items cell) index
  | .recordRef cell =>
    let text := (← get).shown key
    match (← get).store.entry? cell text with
    | some v => return v
    | none => throw (.keyMissing text)
  | _ => throw (.notAContainer name)

def evaluate (call : Caller) (text : List Char) : Run Value := do
  match _hl : literal? (trim text) with
  | some (.value v) => return v
  | some (.list items) =>
    let vs ← items.attach.mapM fun ⟨item, _⟩ => evaluate call item
    newList vs.toArray
  | some (.record pairs) =>
    let entries ← pairs.attach.foldlM (fun (entries : List (Value × Value)) ⟨pair, _⟩ => do
      match _hc : cut? [':'] pair with
      | none => throw (.objectForm (String.ofList pair))
      | some (key, value) =>
        let k ← evaluate call key
        let v ← evaluate call value
        return Store.putEntry (.text ((← get).shown k)) v entries) []
    newRecord entries
  | none =>
    let known := (← get).functions.has
    match _hc : call? known (trim text) with
    | .error e => throw e
    | .ok (some (callee, args)) =>
      let vs ← args.attach.mapM fun ⟨arg, _⟩ => evaluate call arg
      match callee with
      | .builtin b => b.apply vs
      | .function name => call name vs
    | .ok none =>
      match _hd : compound (trim text) with
      | .access name key =>
        let container ← lookup name
        let k ← evaluate call key
        access name container k
      | .value v => return v
      | .name name => lookup name
      | .operation op left right =>
        let l ← evaluate call left
        let r ← evaluate call right
        op.apply l r
      | .unreadable => throw (.cannotEvaluate (String.ofList (trim text)))
termination_by text.length
decreasing_by
  all_goals have ht := length_trim_le text
  · have := length_lt_of_literal?_list _hl ‹_›
    omega
  · have := length_lt_of_literal?_record _hl ‹_›
    have := (length_cut?_lt _hc (by simp)).1
    omega
  · have := length_lt_of_literal?_record _hl ‹_›
    have := (length_cut?_lt _hc (by simp)).2
    omega
  · have := length_lt_of_call? _hc ‹_›
    omega
  · have := length_lt_of_compound_access _hd
    omega
  · have := (length_lt_of_compound_operation _hd).1
    omega
  · have := (length_lt_of_compound_operation _hd).2
    omega

def evaluateArguments (call : Caller) (text : List Char) : Run (List Value) :=
  (splitArguments text).mapM (evaluate call)

/-- The value of an expression that is cut at the first occurrence of an operator's sign. -/
def evaluateBinary (call : Caller) (text sign : String) : Run Value := do
  if sign.isEmpty then throw (.fault .emptySeparator)
  match cut? sign.toList text.toList with
  | none => throw (.badOperation text)
  | some (left, right) =>
    let l ← evaluate call left
    let r ← evaluate call right
    match Operator.ofSign? sign with
    | some op => op.apply l r
    | none => throw (.unknownOperator sign)

end Birokrasi.Extended
