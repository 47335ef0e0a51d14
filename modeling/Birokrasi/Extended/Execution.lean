import Birokrasi.Extended.Blocks
import Birokrasi.Extended.Services
import Birokrasi.Project

/-!
# The extended language: execution

The effect of lines, blocks and functions, as in the second `HambaInterpreter`. A block is executed line
by line, and what follows a statement is at a later line; only loops and calls go back. Loops have a
limit of rounds, and calls take a depth at which they are given up.
-/

namespace Birokrasi.Extended

open Birokrasi.Text
open Birokrasi.Project

/-! ## The project -/

def setBudget (v : Value) : Run Unit := do
  modify fun s => { s with budget := v }
  -- A budget that cannot be compared with zero is a failure, but it has been written by then.
  let v ← ofFault (atLeastZero v)
  modify fun s => { s with budget := v }

/-- Lets the project stand still for some milliseconds, two seconds at most. A disaster may befall it
and cost money. -/
def stall (ms : Float) : Run Unit := do
  let seconds := ms / 1000.0
  report ("⏳ Proyek mangkrak selama " ++ Decimal.shown seconds ++ " detik...")
  wait (if seconds > 2.0 then .int 2 else .float seconds)
  let u ← draw Source.unit
  if u < 0.3 then
    let disaster ← draw (Source.choice "" disasters)
    report ("🚧 EVENT: " ++ disaster)
    let cost ← draw (Source.between 10000000 100000000)
    setBudget (← ofFault ((← get).budget.sub (.int cost)))

def embezzle (percent : Float) : Run Unit := do
  if percent < 0.0 || percent > 100.0 then throw .percentRange
  let actual ← draw (Source.uniform (percent * 0.8) (percent * 1.2))
  let amount ← ofFault ((← get).budget.mul (.float (actual / 100.0)))
  setBudget (← ofFault ((← get).budget.sub amount))
  report ("💰 Korupsi " ++ Decimal.fixed 1 false actual ++ "%: " ++ (← ofFault (rupiah amount)) ++
    " menguap!")
  report ("📊 Sisa anggaran: " ++ (← ofFault (rupiah (← get).budget)))

def meet : Run Unit := do
  meetingOpening.forM report
  for i in [1, 2, 3, 4, 5] do
    report (session i)
    wait (.float 0.5)
  report meetingClosing

def finish : Run Unit := do
  modify fun s => { s with status := ended, progress := .int 100 }
  let budget ← ofFault (rupiah (← get).budget)
  (farewell ended budget).forM report
  modify fun s => { s with finished := true }

/-! ## Assignments -/

def assignItem (name : String) (container : Value) (index : Int) (v : Value) : Run Unit := do
  match container with
  | .listRef cell =>
    if index < 0 ∨ ((← get).store.items cell).size ≤ index.toNat then
      throw (.indexOutside index)
    modify fun s => { s with store := s.store.modifyList cell (·.setIfInBounds index.toNat v) }
  | _ => throw (.notAnArray name)

def assignLine (call : Caller) (line : List Char) : Run Unit := do
  match cut? ['='] line with
  | none => throw (.badAssignment (String.ofList line))
  | some (front, expr) =>
    let target := trim front
    match if target.contains ']' then indexed? target else none with
    | some (name, key) =>
      let name := String.ofList name
      -- The container is the one that the name has before the index and the value are evaluated.
      let container ← lookup name
      let index ← indexOf (← evaluate call key)
      let v ← evaluate call expr
      assignItem name container index v
    | none => assign (String.ofList target) (← evaluate call expr)

/-- Whether a line sets something: it has the sign of an assignment and none of a comparison. -/
def isAssignment (line : List Char) : Bool :=
  line.contains '=' &&
    !(["==", "!=", "<=", ">=", "<", ">"].any fun sign => occursIn sign.toList line)

/-! ## Lines -/

def lineCall? (line : List Char) : Option (List Char × List Char) := do
  let (name, rest) ← word? line
  let rest ← after? ['('] (trimStart rest)
  return (name, rest)

/-- Executes the call that a line is; `false` if there is nothing to call. -/
def executeCall (call : Caller) (line : List Char) : Run Bool := do
  match lineCall? line with
  | none => return false
  | some (name, rest) =>
    let name := String.ofList name
    if (← get).functions.has name then
      match uptoClosing none 0 rest with
      | none => throw (.unclosed (String.ofList line))
      | some args =>
        let vs ← evaluateArguments call args
        let _ ← call name vs
        return true
    else if (Builtin.ofName? name).isSome then
      let _ ← evaluate call line
      return true
    else return false

def startsCommand (names : List String) (line : List Char) : Bool :=
  names.any fun name => startsWith line (name.toList ++ ['('])

def executeLine (call : Caller) (line : List Char) : Run Unit := do
  if startsWith line "kembalikan ".toList then
    let v ← evaluate call (line.drop 11)
    modify fun s => { s with result := v, returning := true }
  else if line = "hentikan".toList then modify fun s => { s with breaking := true }
  else if line = "lanjut".toList then modify fun s => { s with continuing := true }
  else if startsWith line "lapor ".toList || startsWith line "print ".toList then
    report (← evaluateText call (line.drop 6))
  else
    match argument? "Mangkrak" line, argument? "Korupsi" line with
    | some expr, _ => stall (← floatOf (← evaluate call expr))
    | none, some expr => embezzle (← floatOf (← evaluate call expr))
    | none, none =>
      if line = "RapatInfinite()".toList then meet
      else if line = "selesai()".toList || line = "selesai".toList then finish
      else if startsCommand ["tulisFile", "bacaFile"] line then fileCommand call line
      else if startsCommand ["sambungDB", "queryDB", "tutupDB"] line then databaseCommand call line
      else if startsCommand ["httpGet", "httpPost"] line then webCommand call line
      else if (← executeCall call line) then pure ()
      else if isAssignment line then assignLine call line
      else throw (.unknownStatement (String.ofList line))

/-- Executes a line; a failure names the number of the line. -/
def executeNumbered (call : Caller) (number : Nat) (line : List Char) : Run Unit :=
  tryCatch (executeLine call line) fun e =>
    match e with
    | .unfinished => throw .unfinished
    | e => throw (.atLine number e.message)

/-! ## Loops -/

/-- A round of a loop: the marks of the round before are taken away, and after the body it is said
whether the loop is left. -/
def playRound (body : Run Unit) : Run Bool := do
  modify fun s => { s with breaking := false, continuing := false }
  body
  if (← get).breaking then
    modify fun s => { s with breaking := false }
    return true
  else return false

def roundLimit : Nat := 10000

def whileLoop (condition : Run Bool) (body : Run Unit) : (rounds : Nat) → Run Unit
  | 0 => do
    -- The condition is evaluated once more, whatever comes of it.
    let _ ← condition
    report "⚠️ Loop dihentikan: Mencapai batas maksimum iterasi"
  | rounds + 1 => do
    if (← condition) then
      if (← playRound body) then pure () else whileLoop condition body rounds
    else pure ()

/-- The number of rounds after which a counted loop is given up. -/
def patience : Nat := 0x10000000000

/-- Executes a body for the items of a list from an index on. The list may change meanwhile. -/
def itemLoop (name : String) (cell : Nat) (body : Run Unit) : (rounds i : Nat) → Run Unit
  | 0, _ => throw .unfinished
  | rounds + 1, i => do
    match ((← get).store.items cell)[i]? with
    | none => pure ()
    | some item =>
      assign name item
      if (← playRound body) then pure () else itemLoop name cell body rounds (i + 1)

def rangeLoop (name : String) (last : Float) (body : Run Unit) :
    (rounds : Nat) → (current : Float) → Run Unit
  | 0, _ => throw .unfinished
  | rounds + 1, current => do
    if current ≤ last then
      assign name (.float current)
      if (← playRound body) then pure () else rangeLoop name last body rounds (current + 1.0)
    else pure ()

def countedLoop (call : Caller) (header : LoopHeader) (body : Run Unit) : Run Unit := do
  match header with
  | .over name (.items expr) =>
    match ← evaluate call expr with
    | .listRef cell => itemLoop name cell body patience 0
    | _ => throw .notIterable
  | .over name (.range first last) =>
    let first ← floatOf (← evaluate call first)
    let last ← floatOf (← evaluate call last)
    rangeLoop name last body patience first
  | .malformed => throw .loopForm
  | .unknown => throw .unknownLoop

/-! ## Blocks -/

def holds (call : Caller) (expr : List Char) : Run Bool := do
  let v ← evaluate call expr
  return (← get).store.truthy v

def define (lines : Array String) (i : Nat) : Run Unit := do
  match header? (lineAt lines i) with
  | none => throw .functionForm
  | some (name, params) =>
    let length := functionLength lines i
    if length = 0 then throw (.functionWithoutEnd name)
    let f : Function := ⟨params, lines.extract (i + 1) (i + 1 + length)⟩
    modify fun s => { s with functions := s.functions.put name f }

/-- Whether the lines of a block are left: the program, a round of a loop or a function ends. -/
def State.leaving (s : State) : Bool := s.finished || s.breaking || s.continuing || s.returning

mutual

def executeBlock (call : Caller) (lines : Array String) (i stop : Nat) : Run Unit := do
  if h : i < lines.size ∧ i < stop then
    if (← get).leaving then pure ()
    else
      let line := lineAt lines i
      if line.isEmpty || startsWith line ['/', '/'] then executeBlock call lines (i + 1) stop
      else if startsWith line "fungsi ".toList then
        define lines i
        executeBlock call lines (i + 1 + functionLength lines i + 1) stop
      else if startsWith line "jika ".toList then
        executeBranch call lines i false
        have := lt_conditionalEnd h.1
        executeBlock call lines (conditionalEnd lines i) stop
      else if startsWith line "selama ".toList then
        let bodyEnd := blockEnd lines (i + 1) [closingWord]
        whileLoop (holds call (line.drop 7)) (executeBlock call lines (i + 1) bodyEnd) roundLimit
        have := le_blockEnd [closingWord] (show i + 1 ≤ lines.size from h.1)
        executeBlock call lines (bodyEnd + 1) stop
      else if startsWith line "untuk ".toList then
        let bodyEnd := blockEnd lines (i + 1) [closingWord]
        countedLoop call (LoopHeader.ofLine line) (executeBlock call lines (i + 1) bodyEnd)
        have := le_blockEnd [closingWord] (show i + 1 ≤ lines.size from h.1)
        executeBlock call lines (bodyEnd + 1) stop
      else
        executeNumbered call (i + 1) line
        executeBlock call lines (i + 1) stop
  else pure ()
termination_by (lines.size - i, 1)

/-- Executes a conditional from the branch at a line on, where `done` says whether one of its
branches has been executed. Conditions are evaluated even then. -/
def executeBranch (call : Caller) (lines : Array String) (i : Nat) (done : Bool) : Run Unit := do
  if h : i < lines.size then
    match Branch.ofLine (lineAt lines i) with
    | .condition expr =>
      let chosen := (← holds call expr) && !done
      let bodyEnd := blockEnd lines (i + 1) branchWords
      if chosen then executeBlock call lines (i + 1) bodyEnd
      have := le_blockEnd branchWords (show i + 1 ≤ lines.size from h)
      executeBranch call lines bodyEnd (done || chosen)
    | .otherwise =>
      let bodyEnd := blockEnd lines (i + 1) [closingWord]
      if !done then executeBlock call lines (i + 1) bodyEnd
      have := le_blockEnd [closingWord] (show i + 1 ≤ lines.size from h)
      executeBranch call lines bodyEnd done
    | .close => pure ()
    | .other => executeBranch call lines (i + 1) done
  else pure ()
termination_by (lines.size - i, 0)

end

/-! ## Functions and programs -/

/-- Calls a function of the program, with calls inside one another to a depth at most. The variables
are those of before again when it ends; after a failure they stay as they are. -/
def callFunction : (depth : Nat) → Caller
  | 0, _, _ => throw .unfinished
  | depth + 1, name, args => do
    match (← get).functions.get? name with
    | none => throw (.unknownFunction name)
    | some f =>
      if args.length ≠ f.params.length then
        throw (.argumentCount name f.params.length args.length)
      -- Only variables are taken back afterwards: a parameter with the name of a figure sets the figure.
      let saved := (← get).variables
      modify fun s => { s with returning := false, result := .none }
      (f.params.zip args).forM fun (param, arg) => assign param arg
      executeBlock (callFunction depth) f.body 0 f.body.size
      let result := (← get).result
      modify fun s => { s with «variables» := saved, returning := false }
      return result

def callDepth : Nat := 10000

def call : Caller := callFunction callDepth

def execute (code : String) : Run Unit :=
  let lines := (lines code).toArray
  executeBlock call lines 0 lines.size

end Birokrasi.Extended
