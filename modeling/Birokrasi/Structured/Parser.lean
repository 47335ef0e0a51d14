import Birokrasi.Structured.Syntax
import Birokrasi.Text.Class
import Birokrasi.Text.Split

/-!
# The structured language: parser

A program is read line by line (`Parser`). The reader holds the blocks that are open, innermost first: a
line closes the innermost block if it is that block's terminator, and otherwise is a statement, which may
open a block. The end of the text closes what is still open.
-/

namespace Birokrasi.Structured

open Birokrasi.Text

/-! ## Headers -/

/-- A block that has been opened, but for its body. -/
inductive Header where
  | block (line : Nat)
  | attempt (line : Nat)
  /-- The second half of an attempt, with its first half. -/
  | recovery (line : Nat) (body : List Stmt)
  | meeting (line : Nat) (count : String)
  | procedure (line : Nat) (name : String)
  | branch (line : Nat) (condition : String)

def Header.terminator : Header → String
  | .block _ => "akhir"
  | .attempt _ => "jikaGagal"
  | .recovery .. => "akhirCoba"
  | .meeting .. => "selesaiRapat"
  | .procedure .. => "akhirProsedur"
  | .branch .. => "akhir"

/-- The statement that a header and a body make. An attempt that was never completed has nothing in
its second half. -/
def Header.close (body : List Stmt) : Header → Stmt
  | .block line => .block line body
  | .attempt line => .attempt line body []
  | .recovery line first => .attempt line first body
  | .meeting line count => .meeting line count body
  | .procedure line name => .procedure line name body
  | .branch line condition => .branch line condition body []

inductive LineKind where
  | blank
  | opening (header : Header)
  | simple (stmt : Stmt)

/-! ## The shapes of lines -/

def oneLine? (s : List Char) : Option String :=
  if s.isEmpty || s.contains '\n' then none else some (String.ofList s)

def enclosed? (opening : String) (s : List Char) : Option String := do
  let inner ← after? opening.toList s
  if inner.getLast? = some ')' then oneLine? inner.dropLast else none

def word? (s : List Char) : Option (String × List Char) :=
  match s.takeWhile isWord with
  | [] => none
  | w => some (String.ofList w, s.dropWhile isWord)

def afterKeyword? (keyword : String) (s : List Char) : Option (List Char) := do
  let rest ← after? keyword.toList s
  match rest with
  | c :: _ => if isBlank c then some (trimStart rest) else none
  | [] => none

def procedureName? (s : List Char) : Option String := do
  let (name, rest) ← word? (← afterKeyword? "prosedur" s)
  if trimStart rest = ['(', ')'] then some name else none

def callName? (s : List Char) : Option String := do
  let (name, rest) ← word? s
  if rest = ['(', ')'] then some name else none

def assignment? (s : List Char) : Option (String × String) := do
  let (name, rest) ← word? (← afterKeyword? "set" s)
  match trimStart rest with
  | '=' :: rest => return (name, ← oneLine? (trimStart rest))
  | _ => none

def argument? (keyword : String) (s : List Char) : Option String := do
  oneLine? (← afterKeyword? keyword s)

def uncommented (line : String) : List Char :=
  let s := trim line.toList
  match cut? ['/', '/'] s with
  | some (before, _) => trim before
  | none => s

/-- What line number `n` says, if it is not a terminator. -/
def LineKind.ofLine (n : Nat) (line : String) : Except Failure LineKind :=
  let s := uncommented line
  if s.isEmpty then .ok .blank
  else if s = "mulai".toList then .ok (.opening (.block n))
  else if s = "coba".toList then .ok (.opening (.attempt n))
  else if let some count := enclosed? "Rapat(" s then .ok (.opening (.meeting n count))
  else if let some name := procedureName? s then .ok (.opening (.procedure n name))
  else if let some name := callName? s then .ok (.simple (.call n name))
  else if let some (name, expr) := assignment? s then .ok (.simple (.assign n name expr))
  else if let some expr := argument? "lapor" s then .ok (.simple (.report n expr))
  else if let some percent := enclosed? "Korupsi(" s then .ok (.simple (.embezzle n percent))
  else if let some info := enclosed? "Mangkrak(" s then .ok (.simple (.stall n info))
  else if let some condition := argument? "jika" s then .ok (.opening (.branch n condition))
  else .error (.unknownStatement n (String.ofList s))

/-! ## Reading -/

/-- The state of reading: the statements of the level that is being read, latest first, and for each
open block, innermost first, its header and the statements before it on the level outside. -/
structure Reader where
  current : List Stmt := []
  pending : List (Header × List Stmt) := []

namespace Reader

def add (r : Reader) (stmt : Stmt) : Reader := { r with current := stmt :: r.current }

def enter (r : Reader) (header : Header) : Reader := ⟨[], (header, r.current) :: r.pending⟩

/-- Ends the innermost block. The first half of an attempt is followed by its second half. -/
def leave (r : Reader) : Reader :=
  match r.pending with
  | [] => r
  | (.attempt line, outside) :: rest => ⟨[], (.recovery line r.current.reverse, outside) :: rest⟩
  | (header, outside) :: rest => ⟨header.close r.current.reverse :: outside, rest⟩

def isTerminator (r : Reader) (line : String) : Bool :=
  match r.pending with
  | [] => false
  | (header, _) :: _ => trimString line == header.terminator

def feed (r : Reader) (n : Nat) (line : String) : Except Failure Reader :=
  if r.isTerminator line then .ok r.leave
  else
    match LineKind.ofLine n line with
    | .error e => .error e
    | .ok .blank => .ok r
    | .ok (.opening header) => .ok (r.enter header)
    | .ok (.simple stmt) => .ok (r.add stmt)

def feedAll (r : Reader) (n : Nat) : List String → Except Failure Reader
  | [] => .ok r
  | line :: rest =>
    match r.feed n line with
    | .error e => .error e
    | .ok r => r.feedAll (n + 1) rest

/-- Closes the open blocks, from the innermost on, around the statements of a level. -/
def closeAll (current : List Stmt) : List (Header × List Stmt) → List Stmt
  | [] => current.reverse
  | (header, outside) :: rest => closeAll (header.close current.reverse :: outside) rest

def finish (r : Reader) : List Stmt := closeAll r.current r.pending

end Reader

def Program.ofLines (lines : List String) : Except Failure Program :=
  match Reader.feedAll {} 1 lines with
  | .error e => .error e
  | .ok r => .ok ⟨r.finish⟩

def Program.ofText (text : String) : Except Failure Program :=
  Program.ofLines (lines text)

def linesRead (lines : List String) : Nat :=
  match Program.ofLines lines with
  | .error (.unknownStatement n _) => n
  | _ => lines.length

end Birokrasi.Structured
