import Birokrasi.Classic.Reader
import Birokrasi.Classic.State
import Birokrasi.Project

/-!
# The classic language: execution

Programs are executed line by line, as by the first `HambaInterpreter`; the first failure ends them.
-/

namespace Birokrasi.Classic

open Birokrasi.Text
open Birokrasi.Project

def isQuotedBy (q : Char) (s : List Char) : Bool := s.head? = some q && s.getLast? = some q

/-- The text of a value. An integer with too many digits has none. -/
def shownValue? (v : Value) : Option String :=
  match v with
  | .int n => if Nat.pow 10 Decimal.digitLimit ≤ n.natAbs then none else some v.shown
  | v => some v.shown

/-- The text that an expression stands for: a quoted text, a figure of the project, the value of a
formula, or else itself. -/
def evaluate (s : State) (expr : List Char) : Except Fault String :=
  let e := trim expr
  if isQuotedBy '"' e || isQuotedBy '\'' e then .ok (String.ofList e.tail.dropLast)
  else if e = "anggaran".toList then rupiah s.budget
  else if e = "status_proyek".toList then .ok s.status
  else if e = "progress".toList then .ok (Decimal.intText s.progress ++ "%")
  else .ok (((calculate? e).bind shownValue?).getD (String.ofList e))

/-! ## Statements -/

def reportExpr (expr : List Char) : Run Unit := do
  report (← ofFault (evaluate (← get) expr))

/-- Lets the project stand still for some milliseconds, two seconds at most. A disaster may befall it
and cost money. -/
def stall (ms : Int) : Run Unit := do
  let seconds ← ofFault (Value.div (.int ms) (.int 1000))
  report ("⏳ Proyek mangkrak selama " ++ seconds.shown ++ " detik...")
  let long ← ofFault (seconds.greater (.int 2))
  wait (if long then .int 2 else seconds)
  let u ← draw Source.unit
  if u < 0.3 then
    let disaster ← draw (Source.choice "" disasters)
    report ("🚧 EVENT: " ++ disaster)
    let cost ← draw (Source.between 10000000 100000000)
    let left ← ofFault ((← get).budget.sub (.int cost))
    modify fun s => { s with budget := left }
    let left ← ofFault (atLeastZero left)
    modify fun s => { s with budget := left }

def embezzle (percent : Int) : Run Unit := do
  if percent < 0 ∨ 100 < percent then throw .percentRange
  let p ← ofFault (Number.floatOfInt percent)
  let actual ← draw (Source.uniform (p * 0.8) (p * 1.2))
  let amount ← ofFault ((← get).budget.mul (.float (actual / 100.0)))
  let left ← ofFault ((← get).budget.sub amount)
  modify fun s => { s with budget := left }
  let left ← ofFault (atLeastZero left)
  modify fun s => { s with budget := left }
  report ("💰 Korupsi " ++ Decimal.fixed 1 false actual ++ "%: " ++ (← ofFault (rupiah amount)) ++
    " menguap!")
  report ("📊 Sisa anggaran: " ++ (← ofFault (rupiah left)))

def meet : Run Unit := do
  meetingOpening.forM report
  for i in [1, 2, 3, 4, 5] do
    report (session i)
    wait (.float 0.5)
  report meetingClosing

/-- Ends the project on paper. The budget may be one that cannot be shown; what is said before it is
said then too. -/
def finish : Run Unit := do
  modify fun s => { s with status := ended, progress := 100 }
  ((farewell ended "").take 3).forM report
  let budget ← ofFault (rupiah (← get).budget)
  ((farewell ended budget).drop 3).forM report
  modify fun s => { s with finished := true }

def budgetOf? (v : Value) : Option Float :=
  match v with
  | .text s => Decimal.readFloat? s.toList
  | v => v.number?.bind fun n => n.toFloat.toOption

def progressOf? (v : Value) : Option Int :=
  match v with
  | .text s => (Decimal.readInt s.toList).toOption
  | v => v.number?.bind fun n => n.toInt.toOption

def assign (line : List Char) : Run Unit := do
  let (name, value) := (cut? ['='] line).getD (line, [])
  let name := String.ofList (trim name)
  let value := trim value
  if name = "anggaran" then
    match (calculate? value).bind budgetOf? with
    | some x => modify fun s => { s with budget := .float x }
    | none => throw (.badBudget (String.ofList value))
  else if name = "status_proyek" then
    let status ← ofFault (evaluate (← get) value)
    modify fun s => { s with status }
  else if name = "progress" then
    match (calculate? value).bind progressOf? with
    | some n => modify fun s => { s with progress := n }
    | none => throw (.badProgress (String.ofList value))
  else throw (.unknownVariable name)

/-! ## Lines -/

def numberAfter? (name : String) (line : List Char) : Option (List Char) := do
  let rest ← after? (name.toList ++ ['(']) line
  let digits := rest.takeWhile isDigit
  if digits.isEmpty then none
  else
    let _ ← after? [')'] (rest.dropWhile isDigit)
    return digits

def integer (digits : List Char) : Run Int :=
  match Decimal.readInt digits with
  | .ok n => pure n
  | .error (.tooLong n) => throw (.fault (.tooManyDigits n))
  | .error .malformed => throw (.fault (.notAnInt (String.ofList digits)))

/-- What follows the word of a conditional, if the text starts with blanks and the word. Of blanks
alone, one that is no line feed is taken for what follows, as long as another one is before it. -/
def afterWord? (s : List Char) : Option (List Char) :=
  if (s.head?.map isBlank).getD false then
    match after? "maka".toList (trimStart s) with
    | some (b :: rest) =>
      if isBlank b then
        match trimStart rest with
        | [] => if rest.any (· ≠ '\n') then some [] else none
        | action => some (action.takeWhile (· ≠ '\n'))
      else none
    | _ => none
  else none

def cutCondition? : List Char → Option (List Char × List Char)
  | [] => none
  | c :: s =>
    if c = '\n' then none
    else
      match afterWord? s with
      | some action => some ([c], action)
      | none => (cutCondition? s).map fun (condition, action) => (c :: condition, action)

/-- The condition and the action of a conditional, which starts after `lead` blanks at most. -/
def conditionFrom? (s : List Char) : (lead : Nat) → Option (List Char × List Char)
  | 0 => none
  | lead + 1 =>
    match cutCondition? (s.drop (lead + 1)) with
    | some parts => some parts
    | none => conditionFrom? s lead

def conditional? (line : List Char) : Option (List Char × List Char) := do
  let s ← after? "jika".toList line
  conditionFrom? s (s.takeWhile isBlank).length

def executeSimple (line : List Char) : Run Unit := do
  if startsWith line "lapor ".toList || startsWith line "print ".toList then
    reportExpr (line.drop 6)
  else
    match numberAfter? "Mangkrak" line, numberAfter? "Korupsi" line with
    | some digits, _ => stall (← integer digits)
    | none, some digits => embezzle (← integer digits)
    | none, none =>
      if line = "RapatInfinite()".toList then meet
      -- In this version the word alone is no statement.
      else if line = "selesai()".toList then finish
      else if line.contains '=' && !(line.contains '>' || line.contains '<' ||
          occursIn "==".toList line) then assign line
      else throw (.unknownStatement (String.ofList line))

/-- Whether a condition holds, with the budget put in for its name. -/
def conditionHolds (condition : List Char) : Run Bool := do
  let budget := (← get).budget.shown.toList
  match calculate? (trim (replace "anggaran".toList budget condition)) with
  | some v => return v.truthy
  | none => throw (.badCondition (String.ofList condition))

/-- Executes a line. A conditional executes its action, which is shorter than the line; `bound` is a
number of actions inside one another that the line cannot exceed. -/
def executeWithin : (bound : Nat) → List Char → Run Unit
  | 0, line => throw (.unknownStatement (String.ofList line))
  | bound + 1, line => do
    if startsWith line "jika ".toList then
      match conditional? line with
      | none => throw .conditionalForm
      | some (condition, action) =>
        if (← conditionHolds (trim condition)) then executeWithin bound (trim action)
    else executeSimple line

def executeLine (line : String) : Run Unit := executeWithin (line.length + 1) line.toList

/-- Executes numbered lines until one fails or the project has ended. -/
def executeLines : List (String × Nat) → Run Unit
  | [] => pure ()
  | (line, number) :: rest => do
    if (← get).finished then return ()
    let text := trimString line
    if !(text.isEmpty || startsWith text.toList ['/', '/']) then
      tryCatch (executeLine text) fun e => do
        let failure := Failure.atLine number e.message
        report failure.message
        throw failure
    executeLines rest

def execute (code : String) : Run Unit := executeLines ((lines (trimString code)).zipIdx 1)

end Birokrasi.Classic
