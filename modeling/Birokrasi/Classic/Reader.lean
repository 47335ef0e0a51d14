import Birokrasi.Classic.Formula
import Birokrasi.Decimal.Read
import Birokrasi.Json.Read
import Birokrasi.Text.Split

/-!
# Formulas: reading

A text is cut into tokens, and the tokens are read by the usual precedence: powers bind strongest,
then signs, products, sums, comparisons, and the connectives. Both steps take a bound on their depth,
which `Formula.read?` takes from the length of the text.
-/

namespace Birokrasi.Classic

open Birokrasi.Text

inductive Token where
  | literal (v : Value)
  | word (s : String)
  | sign (s : String)

/-! ## Literals -/

def baseValue (base : Nat) (ds : List Char) : Nat :=
  ds.foldl (fun n c => n * base + (Json.hexValue? c).getD 0) 0

/-- The digits of a base at the front of a text, an underscore being allowed before each, and the
rest. -/
def takeBaseDigits (base : Nat) : List Char → List Char × List Char
  | [] => ([], [])
  | '_' :: c :: s =>
    if isBaseDigit c then
      let (ds, rest) := takeBaseDigits base s
      (c :: ds, rest)
    else ([], '_' :: c :: s)
  | c :: s =>
    if isBaseDigit c then
      let (ds, rest) := takeBaseDigits base s
      (c :: ds, rest)
    else ([], c :: s)
where
  isBaseDigit (c : Char) : Bool := (Json.hexValue? c).any (· < base)

def baseOf? (c : Char) : Option Nat :=
  if c = 'x' || c = 'X' then some 16
  else if c = 'o' || c = 'O' then some 8
  else if c = 'b' || c = 'B' then some 2
  else none

/-- An integer from its digits: no zeros in front of other digits, and not too many digits. -/
def wholeNumber? (ds : List Char) : Option Value :=
  if ds.head? = some '0' && ds.any (· ≠ '0') then none
  else if Decimal.digitLimit < ds.length then none
  else some (.int (Decimal.digitsValue ds))

def takeExponent (s : List Char) : Option Int × List Char :=
  match s with
  | c :: rest =>
    if c = 'e' || c = 'E' then
      let (negative, after) := Decimal.takeSign rest
      match Decimal.takeDigits after with
      | ([], _) => (none, s)
      | (ds, after) =>
        let n : Int := Decimal.digitsValue ds
        (some (if negative then -n else n), after)
    else (none, s)
  | [] => (none, s)

def decimalNumber? (s : List Char) : Option (Value × List Char) :=
  let (whole, rest) := Decimal.takeDigits s
  let (part, rest, pointed) :=
    match rest with
    | '.' :: after =>
      let (part, rest) := Decimal.takeDigits after
      (part, rest, true)
    | rest => ([], rest, false)
  if whole.isEmpty && part.isEmpty then none
  else
    let (exponent, rest) := takeExponent rest
    if pointed || exponent.isSome then
      some (.float (Decimal.ofScientific false (whole ++ part)
        (exponent.getD 0 - (part.length : Int))), rest)
    else (wholeNumber? whole).map fun v => (v, rest)

def number? (s : List Char) : Option (Value × List Char) :=
  match s with
  | '0' :: c :: rest =>
    match baseOf? c with
    | some base =>
      match takeBaseDigits base rest with
      | ([], _) => none
      | (ds, rest) => some (.int (baseValue base ds), rest)
    | none => decimalNumber? s
  | s => decimalNumber? s

/-- Whether a number may end where the text `rest` follows: a word may follow directly only if it is a
connective. -/
def endsNumber (rest : List Char) : Bool :=
  match rest.takeWhile isWord with
  | [] => true
  | w => w = "and".toList || w = "or".toList || w = "not".toList

def charOfDigits? (base count : Nat) (s : List Char) : Option (Char × List Char) :=
  let ds := s.take count
  if ds.length = count && ds.all fun c => (Json.hexValue? c).any (· < base) then
    let n := baseValue base ds
    if n.isValidChar then some (Char.ofNat n, s.drop count) else none
  else none

def octalDigits (s : List Char) : List Char :=
  (s.take 3).takeWhile fun c => '0' ≤ c && c ≤ '7'

/-- The characters that an escape stands for, given the text after the backslash, and the rest. An
unknown escape stands for itself. -/
def escape? (s : List Char) : Option (List Char × List Char) :=
  match s with
  | [] => none
  | c :: rest =>
    match c with
    | '\n' => some ([], rest)
    | '\\' => some (['\\'], rest)
    | '\'' => some (['\''], rest)
    | '"' => some (['"'], rest)
    | 'a' => some (['\x07'], rest)
    | 'b' => some (['\x08'], rest)
    | 'f' => some (['\x0c'], rest)
    | 'n' => some (['\n'], rest)
    | 'r' => some (['\r'], rest)
    | 't' => some (['\t'], rest)
    | 'v' => some (['\x0b'], rest)
    | 'x' => (charOfDigits? 16 2 rest).map fun (c, rest) => ([c], rest)
    | 'u' => (charOfDigits? 16 4 rest).map fun (c, rest) => ([c], rest)
    | 'U' => (charOfDigits? 16 8 rest).map fun (c, rest) => ([c], rest)
    | 'N' => none
    | c =>
      match octalDigits s with
      | [] => some (['\\', c], rest)
      | ds => some ([Char.ofNat (baseValue 8 ds)], s.drop ds.length)

def quotedChars? (q : Char) : (bound : Nat) → List Char → Option (List Char × List Char)
  | 0, _ => none
  | _ + 1, [] => none
  | bound + 1, c :: s =>
    if c = q then some ([], s)
    else if c = '\n' then none
    else if c = '\\' then do
      let (cs, s) ← escape? s
      let (more, rest) ← quotedChars? q bound s
      return (cs ++ more, rest)
    else do
      let (more, rest) ← quotedChars? q bound s
      return (c :: more, rest)

/-! ## Tokens -/

def signs : List String :=
  ["**", "//", "<=", ">=", "==", "!=", "+", "-", "*", "/", "%", "<", ">", "(", ")"]

def sign? (s : List Char) : Option (Token × List Char) :=
  signs.findSome? fun t => (after? t.toList s).map fun rest => (.sign t, rest)

def token? (s : List Char) : Option (Token × List Char) :=
  match s with
  | [] => none
  | c :: rest =>
    if c.isDigit || (c = '.' && Decimal.startsWithDigit rest) then do
      let (v, rest) ← number? s
      if endsNumber rest then return (.literal v, rest) else none
    else if c = '"' || c = '\'' then do
      let (cs, rest) ← quotedChars? c (rest.length + 1) rest
      return (.literal (.text (String.ofList cs)), rest)
    else if isWord c then
      let w := String.ofList (s.takeWhile isWord)
      let rest := s.dropWhile isWord
      if w = "True" then some (.literal (.bool true), rest)
      else if w = "False" then some (.literal (.bool false), rest)
      else if w = "None" then some (.literal .none, rest)
      else some (.word w, rest)
    else sign? s

/-- The tokens of a text; a hash mark starts a comment. -/
def tokens? : (bound : Nat) → List Char → Option (List Token)
  | _, [] => some []
  | 0, _ :: _ => none
  | bound + 1, c :: s =>
    if c = ' ' || c = '\t' || c = '\x0c' then tokens? bound s
    else if c = '#' then some []
    else do
      let (t, rest) ← token? (c :: s)
      return t :: (← tokens? bound rest)

/-! ## Formulas -/

def sumSign? : Token → Option Operator
  | .sign "+" => some .add
  | .sign "-" => some .sub
  | _ => none

def productSign? : Token → Option Operator
  | .sign "*" => some .mul
  | .sign "/" => some .div
  | .sign "//" => some .floorDiv
  | .sign "%" => some .mod
  | _ => none

def relation? : Token → Option Relation
  | .sign "==" => some .eq
  | .sign "!=" => some .ne
  | .sign "<" => some .lt
  | .sign ">" => some .gt
  | .sign "<=" => some .le
  | .sign ">=" => some .ge
  | _ => none

/-- The texts at the front of tokens, joined to the one before them, and the rest. -/
def joinTexts (s : String) : List Token → String × List Token
  | .literal (.text t) :: rest => joinTexts (s ++ t) rest
  | rest => (s, rest)

abbrev Reading := Option (Formula × List Token)

mutual

def disjunction : (bound : Nat) → List Token → Reading
  | 0, _ => none
  | bound + 1, ts => do
    let (l, ts) ← conjunction bound ts
    match ts with
    | .word "or" :: ts => do
      let (r, ts) ← disjunction bound ts
      return (.either l r, ts)
    | _ => return (l, ts)

def conjunction : (bound : Nat) → List Token → Reading
  | 0, _ => none
  | bound + 1, ts => do
    let (l, ts) ← inversion bound ts
    match ts with
    | .word "and" :: ts => do
      let (r, ts) ← conjunction bound ts
      return (.both l r, ts)
    | _ => return (l, ts)

def inversion : (bound : Nat) → List Token → Reading
  | 0, _ => none
  | bound + 1, .word "not" :: ts => do
    let (f, ts) ← inversion bound ts
    return (.inverse f, ts)
  | bound + 1, ts => do
    let (first, ts) ← sum bound ts
    let (rest, ts) ← comparisons bound ts
    return (if rest.isEmpty then first else .chain first rest, ts)

def comparisons : (bound : Nat) → List Token → Option (List (Relation × Formula) × List Token)
  | 0, _ => none
  | _ + 1, [] => some ([], [])
  | bound + 1, t :: ts =>
    match relation? t with
    | none => some ([], t :: ts)
    | some r => do
      let (f, ts) ← sum bound ts
      let (more, ts) ← comparisons bound ts
      return ((r, f) :: more, ts)

def sum : (bound : Nat) → List Token → Reading
  | 0, _ => none
  | bound + 1, ts => do
    let (l, ts) ← product bound ts
    summands bound l ts

/-- The summands that follow a formula, which are added from the left. -/
def summands : (bound : Nat) → Formula → List Token → Reading
  | 0, _, _ => none
  | _ + 1, l, [] => some (l, [])
  | bound + 1, l, t :: ts =>
    match sumSign? t with
    | none => some (l, t :: ts)
    | some op => do
      let (r, ts) ← product bound ts
      summands bound (.binary op l r) ts

def product : (bound : Nat) → List Token → Reading
  | 0, _ => none
  | bound + 1, ts => do
    let (l, ts) ← signed bound ts
    factors bound l ts

/-- The factors that follow a formula, which are multiplied from the left. -/
def factors : (bound : Nat) → Formula → List Token → Reading
  | 0, _, _ => none
  | _ + 1, l, [] => some (l, [])
  | bound + 1, l, t :: ts =>
    match productSign? t with
    | none => some (l, t :: ts)
    | some op => do
      let (r, ts) ← signed bound ts
      factors bound (.binary op l r) ts

def signed : (bound : Nat) → List Token → Reading
  | 0, _ => none
  | bound + 1, .sign "-" :: ts => do
    let (f, ts) ← signed bound ts
    return (.negative f, ts)
  | bound + 1, .sign "+" :: ts => do
    let (f, ts) ← signed bound ts
    return (.positive f, ts)
  | bound + 1, ts => do
    let (base, ts) ← atom bound ts
    match ts with
    | .sign "**" :: ts => do
      let (e, ts) ← signed bound ts
      return (.binary .pow base e, ts)
    | _ => return (base, ts)

def atom : (bound : Nat) → List Token → Reading
  | 0, _ => none
  | _ + 1, .literal (.text s) :: ts =>
    let (s, ts) := joinTexts s ts
    some (.constant (.text s), ts)
  | _ + 1, .literal v :: ts => some (.constant v, ts)
  | bound + 1, .sign "(" :: ts => do
    match ← disjunction bound ts with
    | (f, .sign ")" :: ts) => return (f, ts)
    | _ => none
  | _ + 1, _ => none

end

/-- The formula that a text is. Each token is passed at most at ten levels. -/
def Formula.read? (text : List Char) : Option Formula := do
  let ts ← tokens? text.length text
  match ← disjunction (10 * (ts.length + 1)) ts with
  | (f, []) => return f
  | _ => none

/-- The value of the formula that a text is; `none` also for what is beyond formulas. -/
def calculate? (text : List Char) : Option Value := do (← Formula.read? text).value?

end Birokrasi.Classic
