import Birokrasi.Bytecode.Image
import Birokrasi.Decimal.Read
import Birokrasi.Structured.Syntax
import Birokrasi.Text.Split

/-!
# Compiling structured programs

A program becomes a list of instructions and the pools of constants, texts and slots that they refer
to, as in `BytecodeCompiler`. Constants and texts are pooled: an equal one is not stored twice.
Procedures, calls and attempts have no instructions.
-/

namespace Birokrasi.Bytecode

open Birokrasi.Structured (Stmt Program)
open Birokrasi.Text

/-- What has been pooled so far, and how many bytes of code there are. -/
structure Builder where
  constants : List Value := []
  strings : List String := []
  slots : Table String Nat := []
  size : Nat := 0

abbrev Emit := StateM Builder

/-! ## Pools -/

/-- The number of a constant. Constants are equal if their values are, whatever their kinds. -/
def constantId (v : Value) : Emit Nat := do
  let b ← get
  match b.constants.findIdx? (·.same v) with
  | some i => return i
  | none =>
    set { b with constants := b.constants ++ [v] }
    return b.constants.length

def stringId (s : String) : Emit Nat := do
  let b ← get
  match b.strings.findIdx? (· = s) with
  | some i => return i
  | none =>
    set { b with strings := b.strings ++ [s] }
    return b.strings.length

def slotOf (name : String) : Emit Nat := do
  let b ← get
  match b.slots.get? name with
  | some i => return i
  | none =>
    set { b with slots := b.slots.put name b.slots.length }
    return b.slots.length

/-- The mark of an operand that is the number of a text. -/
def stringMark : Nat := 0x8000

/-! ## Instructions -/

def emit (op : Opcode) (operand : Nat := 0) : Emit (List Instr) := do
  let i : Instr := ⟨op, operand⟩
  modify fun b => { b with size := b.size + i.size }
  return [i]

def emitString (s : String) : Emit (List Instr) := do
  emit .push ((← stringId s) ||| stringMark)

def numeral? (s : List Char) : Option Value :=
  if s.contains '.' then (Decimal.readFloat? s).map .float
  else (Decimal.readInt s).toOption.map .int

/-- Whether a text is taken for the name of a variable: it has letters only, or an underscore. -/
def isVariable (s : List Char) : Bool := (!s.isEmpty && s.all isLetter) || s.contains '_'

def isQuotedBy (q : Char) (s : List Char) : Bool := s.head? = some q && s.getLast? = some q

/-- The operators, in the order in which they are looked for. -/
def operators : List (List Char × Opcode) :=
  [(['+'], .add), (['-'], .sub), (['*'], .mul), (['/'], .div), (['=', '='], .eq), (['<'], .lt),
    (['>'], .gt)]

def operator? (s : List Char) : Option (Opcode × List Char × List Char) :=
  operators.findSome? fun o => (cut? o.1 s).map fun sides => (o.2, sides)

/-- The operator is one of those looked for, and the sides are what it cuts the text into. -/
theorem exists_sign_of_operator? {s left right : List Char} {op : Opcode}
    (h : operator? s = some (op, left, right)) :
    ∃ sign, (sign, op) ∈ operators ∧ cut? sign s = some (left, right) := by
  obtain ⟨⟨sign, _⟩, ho, hs⟩ := List.exists_of_findSome?_eq_some h
  obtain ⟨sides, hc, he⟩ := Option.map_eq_some_iff.1 hs
  cases he
  exact ⟨sign, ho, hc⟩

theorem length_operator? {s left right : List Char} {op : Opcode}
    (h : operator? s = some (op, left, right)) :
    left.length < s.length ∧ right.length < s.length := by
  obtain ⟨sign, ho, hc⟩ := exists_sign_of_operator? h
  have hsign : ∀ o ∈ operators, o.1 ≠ [] := by decide
  exact length_cut?_lt hc (hsign _ ho)

/-- Compiles an expression, given as a text. A text that is none has no instructions. -/
def compileExpr (text : List Char) : Emit (List Instr) :=
  let s := trim text
  if isQuotedBy '"' s || isQuotedBy '\'' s then emitString (String.ofList s.tail.dropLast)
  else
    match numeral? s with
    | some v => do emit .push (← constantId v)
    | none =>
      if isVariable s then do emit .load (← slotOf (String.ofList s))
      else
        match h : operator? s with
        | some (op, left, right) => do
          have := length_operator? h
          have : s.length ≤ text.length := length_trim_le text
          let first ← compileExpr left
          let second ← compileExpr right
          let last ← emit op
          return first ++ second ++ last
        | none => return []
termination_by text.length

mutual

def compileStmt : Stmt → Emit (List Instr)
  | .block _ body => compileBody body
  | .assign _ name expr => do
    let value ← compileExpr expr.toList
    return value ++ (← emit .store (← slotOf name))
  | .report _ expr => do
    let value ← compileExpr expr.toList
    return value ++ (← emit .print)
  | .embezzle _ percent => do
    let value ← compileExpr percent.toList
    return value ++ (← emit .embezzle)
  | .stall _ info => do
    let value ← emitString info
    return value ++ (← emit .stall)
  | .meeting _ count body => do
    let value ← compileExpr count.toList
    let start := (← get).size
    let inner ← compileBody body
    return value ++ inner ++ (← emit .meeting start)
  | .branch _ condition body _ => do
    let value ← compileExpr condition.toList
    -- The jump takes its room now, and its target once the body is compiled. The other branch of the
    -- conditional has no code.
    let _ ← emit .jumpIfFalse
    let inner ← compileBody body
    return value ++ [⟨.jumpIfFalse, (← get).size⟩] ++ inner
  | .attempt .. | .procedure .. | .call .. | .unknown _ => return []

def compileBody : List Stmt → Emit (List Instr)
  | [] => return []
  | s :: rest => do
    let first ← compileStmt s
    return first ++ (← compileBody rest)

end

def instructions (p : Program) : List Instr × Builder :=
  (do return (← compileBody p.body) ++ (← emit .finish) : Emit (List Instr)).run {}

def Builder.image (b : Builder) (is : List Instr) : Image where
  code := assemble is
  constants := b.constants
  strings := b.strings
  slots := b.slots.map fun e => (e.1, (e.2 : Int))

def compile (p : Program) : Image :=
  let (is, b) := instructions p
  b.image is

def compileExpression (text : String) : Image :=
  let (is, b) := (compileExpr text.toList).run {}
  b.image is

end Birokrasi.Bytecode
