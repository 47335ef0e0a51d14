import Birokrasi.Structured.Arguments
import Birokrasi.Structured.Parser
import Birokrasi.Structured.State

/-!
# The structured language: expressions

The value of an expression, found from its text (`ExpressionEvaluator`). Literals and calls of the three
built-in functions are recognised first; then the text is cut at the first occurrence of the first operator
that it contains, comparisons before arithmetic; what is left is a name.
-/

namespace Birokrasi.Structured

open Birokrasi.Text

/-! ## Operators -/

inductive CompareOp where
  | le
  | ge
  | eq
  | ne
  | lt
  | gt

inductive ArithOp where
  | add
  | sub
  | mul
  | div
  | mod

def CompareOp.sign : CompareOp → String
  | le => "<="
  | ge => ">="
  | eq => "=="
  | ne => "!="
  | lt => "<"
  | gt => ">"

def ArithOp.sign : ArithOp → String
  | add => "+"
  | sub => "-"
  | mul => "*"
  | div => "/"
  | mod => "%"

/-- The comparisons in the order in which they are looked for. -/
def CompareOp.all : List CompareOp := [le, ge, eq, ne, lt, gt]

def ArithOp.all : List ArithOp := [add, sub, mul, div, mod]

/-- Two values compared. Only equality looks at the values themselves; the order is that of the
numbers they are taken for. -/
def CompareOp.apply (op : CompareOp) (l r : Value) : Except Fault Value := do
  match op with
  | eq => return .bool (l.equal r)
  | ne => return .bool !(l.equal r)
  | le => return .bool ((← l.asFloat) ≤ (← r.asFloat))
  | ge => return .bool ((← l.asFloat) ≥ (← r.asFloat))
  | lt => return .bool ((← l.asFloat) < (← r.asFloat))
  | gt => return .bool ((← l.asFloat) > (← r.asFloat))

def leastDivisor : Float := 1e-9

def safeDivisor (x : Float) : Float := if leastDivisor > x then leastDivisor else x

/-- Two values combined. A text on either side makes a sum a text; everything else is calculated in
doubles. -/
def ArithOp.apply (op : ArithOp) (l r : Value) : Except Fault Value := do
  match op with
  | add =>
    match l, r with
    | .text _, _ | _, .text _ => return .text (reportText l ++ reportText r)
    | _, _ => return .float ((← l.asFloat) + (← r.asFloat))
  | sub => return .float ((← l.asFloat) - (← r.asFloat))
  | mul => return .float ((← l.asFloat) * (← r.asFloat))
  | div => return .float ((← l.asFloat) / safeDivisor (← r.asFloat))
  | mod => return .float (Decimal.floorMod (← l.asFloat) (safeDivisor (← r.asFloat)))

def compareBySign (sign : String) (l r : Value) : Except Fault Value :=
  match CompareOp.all.find? (·.sign = sign) with
  | some op => op.apply l r
  | none => do
    let _ ← l.asFloat
    let _ ← r.asFloat
    return .bool false

def arithBySign (sign : String) (l r : Value) : Except Fault Value :=
  match ArithOp.all.find? (·.sign = sign) with
  | some op => op.apply l r
  | none => .ok (.int 0)

/-! ## Literals -/

def betweenQuotes (q : Char) (s : List Char) : Bool := s.head? = some q && s.getLast? = some q

def literal? (s : List Char) : Option Value :=
  if betweenQuotes '"' s || betweenQuotes '\'' s then some (.text (String.ofList s.tail.dropLast))
  else if s = "benar".toList then some (.bool true)
  else if s = "salah".toList then some (.bool false)
  else if s = "kosong".toList then some .none
  else none

def allDigits (s : List Char) : Bool := !s.isEmpty && s.all isDigit

def numeral? (s : List Char) : Option Value :=
  if s.contains '.' then (Decimal.readFloat? s).map .float
  else if allDigits s || (s.head? = some '-' && allDigits s.tail) then
    (Decimal.readInt s).toOption.map .int
  else none

/-- A name: a letter of ASCII or an underscore, and characters of words. -/
def isName : List Char → Bool
  | [] => false
  | c :: rest => (c.isAlpha || c = '_') && rest.all isWord

def callParts? (s : List Char) : Option (List Char × List Char) :=
  let name := s.takeWhile isWord
  match s.dropWhile isWord with
  | '(' :: rest =>
    if !name.isEmpty && rest.getLast? = some ')' && !rest.dropLast.contains '\n' then
      some (name, rest.dropLast)
    else none
  | _ => none

/-- The value of a call of a built-in function; no other name has one. Without arguments there is a
value of rest. -/
def builtin? (name : List Char) (args : List Value) : Except Fault (Option Value) :=
  if name = "teks".toList then
    .ok (some (.text ((args.head?.map reportText).getD "")))
  else if name = "angka".toList then
    match args with
    | [] => .ok (some (.int 0))
    | v :: _ => do return some (.float (← v.asFloat))
  else if name = "panjang".toList then
    match args with
    | [] => .ok (some (.int 0))
    | v :: _ => do return some (.int (← v.length))
  else .ok none

/-! ## Evaluation -/

def comparison? (s : List Char) : Option (CompareOp × List Char × List Char) :=
  CompareOp.all.findSome? fun op => (cut? op.sign.toList s).map fun sides => (op, sides)

/-- The first operation that occurs in a text, with the texts on its sides. A minus sign at the
front belongs to a number, and a text with one is never cut at a minus sign. -/
def operation? (s : List Char) : Option (ArithOp × List Char × List Char) :=
  ArithOp.all.findSome? fun op =>
    match op with
    | .sub => if s.head? = some '-' then none else (cut? ['-'] s).map fun sides => (.sub, sides)
    | op => (cut? op.sign.toList s).map fun sides => (op, sides)

theorem length_callParts? {s name args : List Char} (h : callParts? s = some (name, args)) :
    args.length < s.length := by
  simp only [callParts?] at h
  split at h
  next rest hr =>
    split at h
    · simp only [Option.some.injEq, Prod.mk.injEq] at h
      obtain ⟨-, rfl⟩ := h
      have := (List.dropWhile_suffix (l := s) isWord).length_le
      rw [hr] at this
      simp only [List.length_cons, List.length_dropLast] at this ⊢
      omega
    · simp at h
  · simp at h

theorem length_comparison? {s left right : List Char} {op : CompareOp}
    (h : comparison? s = some (op, left, right)) :
    left.length < s.length ∧ right.length < s.length := by
  obtain ⟨o, -, ho⟩ := List.exists_of_findSome?_eq_some h
  obtain ⟨⟨l, r⟩, hc, he⟩ := Option.map_eq_some_iff.1 ho
  simp only [Prod.mk.injEq] at he
  obtain ⟨rfl, rfl, rfl⟩ := he
  exact length_cut?_lt hc (by cases o <;> decide)

theorem length_operation? {s left right : List Char} {op : ArithOp}
    (h : operation? s = some (op, left, right)) :
    left.length < s.length ∧ right.length < s.length := by
  obtain ⟨o, -, ho⟩ := List.exists_of_findSome?_eq_some h
  split at ho
  · split at ho
    · simp at ho
    · obtain ⟨⟨l, r⟩, hc, he⟩ := Option.map_eq_some_iff.1 ho
      simp only [Prod.mk.injEq] at he
      obtain ⟨-, rfl, rfl⟩ := he
      exact length_cut?_lt hc (by simp)
  · obtain ⟨⟨l, r⟩, hc, he⟩ := Option.map_eq_some_iff.1 ho
    simp only [Prod.mk.injEq] at he
    obtain ⟨-, rfl, rfl⟩ := he
    exact length_cut?_lt hc (by cases o <;> decide)

/-- The value of an expression in a state. The arguments of a call are evaluated whatever its
name. -/
def eval (state : State) (text : List Char) : Except Failure Value :=
  match literal? (trim text) <|> numeral? (trim text) with
  | some v => .ok v
  | none => do
    let called ←
      match hc : callParts? (trim text) with
      | some (name, args) => do
        let vs ← (pieces args).attach.mapM fun ⟨p, hp⟩ =>
          have := length_pieces_le hp
          have := length_callParts? hc
          have := length_trim_le text
          eval state p
        ofFault (builtin? name vs)
      | none => .ok none
    match called with
    | some v => .ok v
    | none =>
      match hq : comparison? (trim text) with
      | some (op, left, right) => do
        have := length_comparison? hq
        have := length_trim_le text
        let l ← eval state left
        let r ← eval state right
        ofFault (op.apply l r)
      | none =>
        match ho : operation? (trim text) with
        | some (op, left, right) => do
          have := length_operation? ho
          have := length_trim_le text
          let l ← eval state left
          let r ← eval state right
          ofFault (op.apply l r)
        | none =>
          if isName (trim text) then state.lookup (String.ofList (trim text))
          else .error (.cannotEvaluate (String.ofList (trim text)))
termination_by text.length

def evalArguments (state : State) (text : List Char) : Except Failure (List Value) :=
  (pieces text).mapM (eval state)

def evaluate (expr : String) : Run Value := do
  Run.ofExcept (eval (← get) expr.toList)

end Birokrasi.Structured
