import Birokrasi.Decimal.Read
import Birokrasi.Value.Basic

/-!
# Reading JSON

The value of a JSON text. Objects become records in the order of their keys, of which the last of
several equal ones counts; integers are unbounded. A text that is no JSON is refused with the place
where reading stopped.
-/

namespace Birokrasi.Json

open Birokrasi.Decimal

inductive Problem where
  | value
  | propertyName
  | colon
  | comma
  | unterminated
  | control
  | escape
  | unicodeEscape
  | extra

def Problem.text : Problem → String
  | .value => "Expecting value"
  | .propertyName => "Expecting property name enclosed in double quotes"
  | .colon => "Expecting ':' delimiter"
  | .comma => "Expecting ',' delimiter"
  | .unterminated => "Unterminated string starting at"
  | .control => "Invalid control character at"
  | .escape => "Invalid \\escape"
  | .unicodeEscape => "Invalid \\uXXXX escape"
  | .extra => "Extra data"

/-- A problem, with the number of characters that were left. -/
structure Stop where
  problem : Problem
  left : Nat

structure Error where
  problem : Problem
  line : Nat
  column : Nat
  position : Nat

def Error.message (e : Error) : String :=
  e.problem.text ++ ": line " ++ toString e.line ++ " column " ++ toString e.column ++ " (char " ++
    toString e.position ++ ")"

def isSpace (c : Char) : Bool := c = ' ' || c = '\t' || c = '\n' || c = '\r'

def skipSpace (s : List Char) : List Char := s.dropWhile isSpace

def hexValue? (c : Char) : Option Nat :=
  if c.isDigit then some (c.toNat - 48)
  else if 'a' ≤ c && c ≤ 'f' then some (c.toNat - 87)
  else if 'A' ≤ c && c ≤ 'F' then some (c.toNat - 55)
  else none

def unit? : List Char → Option (Nat × List Char)
  | a :: b :: c :: d :: rest => do
    return ((((← hexValue? a) * 16 + (← hexValue? b)) * 16 + (← hexValue? c)) * 16 + (← hexValue? d),
      rest)
  | _ => none

def shortEscape? (c : Char) : Option Char :=
  match c with
  | '"' => some '"'
  | '\\' => some '\\'
  | '/' => some '/'
  | 'b' => some '\x08'
  | 'f' => some '\x0c'
  | 'n' => some '\n'
  | 'r' => some '\r'
  | 't' => some '\t'
  | _ => none

/-- The character of a UTF-16 unit, together with a second unit if that completes a pair; half a
pair stands for the replacement character. -/
def ofUnits (n : Nat) (rest : List Char) : Char × List Char :=
  if 0xD800 ≤ n && n < 0xDC00 then
    match rest with
    | '\\' :: 'u' :: more =>
      match unit? more with
      | some (m, after) =>
        if 0xDC00 ≤ m && m < 0xE000 then
          (Char.ofNat (0x10000 + (n - 0xD800) * 0x400 + (m - 0xDC00)), after)
        else ('�', rest)
      | none => ('�', rest)
    | _ => ('�', rest)
  else if 0xDC00 ≤ n && n < 0xE000 then ('�', rest)
  else (Char.ofNat n, rest)

/-- The rest of a string after its opening quote, which stood where `start` characters were left. -/
def stringFrom (start : Nat) : Nat → List Char → List Char → Except Stop (String × List Char)
  | 0, _, _ => .error ⟨.unterminated, start⟩
  | _ + 1, _, [] => .error ⟨.unterminated, start⟩
  | fuel + 1, done, c :: s =>
    if c = '"' then .ok (String.ofList done.reverse, s)
    else if c.toNat < 0x20 then .error ⟨.control, s.length + 1⟩
    else if c = '\\' then
      match s with
      | [] => .error ⟨.unterminated, start⟩
      | 'u' :: digits =>
        match unit? digits with
        | some (n, rest) =>
          let (d, rest) := ofUnits n rest
          stringFrom start fuel (d :: done) rest
        | none => .error ⟨.unicodeEscape, s.length⟩
      | e :: rest =>
        match shortEscape? e with
        | some d => stringFrom start fuel (d :: done) rest
        | none => .error ⟨.escape, s.length + 1⟩
    else stringFrom start fuel (c :: done) s

def number? (s : List Char) : Option (Value × List Char) :=
  let (negative, s) :=
    match s with
    | '-' :: s => (true, s)
    | s => (false, s)
  let (whole, s) :=
    match s with
    | '0' :: s => (['0'], s)
    | s => (s.takeWhile Char.isDigit, s.dropWhile Char.isDigit)
  if whole.isEmpty then none
  else
    let (part, s) :=
      match s with
      | '.' :: rest =>
        let ds := rest.takeWhile Char.isDigit
        if ds.isEmpty then ([], s) else (ds, rest.dropWhile Char.isDigit)
      | s => ([], s)
    let (power, s) :=
      match s with
      | c :: rest =>
        if c = 'e' || c = 'E' then
          let (minus, rest) := takeSign rest
          let ds := rest.takeWhile Char.isDigit
          if ds.isEmpty then (none, s)
          else
            let n : Int := digitsValue ds
            (some (if minus then -n else n), rest.dropWhile Char.isDigit)
        else (none, s)
      | [] => (none, s)
    if part.isEmpty && power.isNone then
      let n : Int := digitsValue whole
      some (.int (if negative then -n else n), s)
    else
      let e := power.getD 0 - (part.length : Int)
      some (.float (ofScientific negative (whole ++ part) e), s)

def word? (s : List Char) : Option (Value × List Char) :=
  let try' := fun (w : String) (v : Value) =>
    if w.toList.isPrefixOf s then some (v, s.drop w.length) else none
  try' "null" .none <|> try' "true" (.bool true) <|> try' "false" (.bool false) <|>
    try' "NaN" (.float nan) <|> try' "Infinity" (.float (infinity false)) <|>
    try' "-Infinity" (.float (infinity true))

def putKey (name : String) (v : Value) : List (Value × Value) → List (Value × Value)
  | [] => [(.text name, v)]
  | (k, w) :: rest =>
    match k with
    | .text other => if other = name then (k, v) :: rest else (k, w) :: putKey name v rest
    | _ => (k, w) :: putKey name v rest

def recordOf (entries : List (String × Value)) : Value :=
  let names := entries.map Prod.fst
  if names.length = names.eraseDups.length then
    .record (entries.reverse.map fun e => (.text e.1, e.2))
  else .record (entries.foldr (fun e r => putKey e.1 e.2 r) [])

mutual

/-- A value at the front of the text, and the rest. The fuel bounds the number of characters. -/
def value : Nat → List Char → Except Stop (Value × List Char)
  | 0, s => .error ⟨.value, s.length⟩
  | fuel + 1, s =>
    match s with
    | '"' :: rest => do
      let (t, rest) ← stringFrom s.length (rest.length + 1) [] rest
      return (.text t, rest)
    | '[' :: rest =>
      match skipSpace rest with
      | ']' :: rest => .ok (.list [], rest)
      | rest => items fuel [] rest
    | '{' :: rest =>
      match skipSpace rest with
      | '}' :: rest => .ok (.record [], rest)
      | rest => entries fuel [] rest
    | s =>
      match word? s <|> number? s with
      | some found => .ok found
      | none => .error ⟨.value, s.length⟩

/-- The items of an array from a value on; `done` holds those before, latest first. -/
def items : Nat → List Value → List Char → Except Stop (Value × List Char)
  | 0, _, s => .error ⟨.value, s.length⟩
  | fuel + 1, done, s =>
    match value fuel s with
    | .error e => .error e
    | .ok (v, rest) =>
      match skipSpace rest with
      | ',' :: rest => items fuel (v :: done) (skipSpace rest)
      | ']' :: rest => .ok (.list (v :: done).reverse, rest)
      | rest => .error ⟨.comma, rest.length⟩

def entries : Nat → List (String × Value) → List Char → Except Stop (Value × List Char)
  | 0, _, s => .error ⟨.value, s.length⟩
  | fuel + 1, done, s =>
    match s with
    | '"' :: rest =>
      match stringFrom s.length (rest.length + 1) [] rest with
      | .error e => .error e
      | .ok (name, rest) =>
        match skipSpace rest with
        | ':' :: rest =>
          match value fuel (skipSpace rest) with
          | .error e => .error e
          | .ok (v, rest) =>
            match skipSpace rest with
            | ',' :: rest => entries fuel ((name, v) :: done) (skipSpace rest)
            | '}' :: rest => .ok (recordOf ((name, v) :: done), rest)
            | rest => .error ⟨.comma, rest.length⟩
        | rest => .error ⟨.colon, rest.length⟩
    | s => .error ⟨.propertyName, s.length⟩

end

def locate (s : List Char) (stop : Stop) : Error :=
  let position := s.length - stop.left
  let before := s.take position
  let line := before.count '\n' + 1
  let column := (before.reverse.takeWhile (· ≠ '\n')).length + 1
  ⟨stop.problem, line, column, position⟩

def read (text : String) : Except Error Value :=
  let s := text.toList
  match value (s.length + 1) (skipSpace s) with
  | .error stop => .error (locate s stop)
  | .ok (v, rest) =>
    match skipSpace rest with
    | [] => .ok v
    | rest => .error (locate s ⟨.extra, rest.length⟩)

end Birokrasi.Json
