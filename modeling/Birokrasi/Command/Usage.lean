import Birokrasi.Decimal.Layout
import Birokrasi.Decimal.Read
import Birokrasi.Table
import Birokrasi.Text.Class
import Birokrasi.Text.Split

/-!
# Command lines

What a command takes, how its arguments are read, and what its help says. Every command takes one
file, and flags before or after it. A flag may be shortened as long as it stays unique.
-/

namespace Birokrasi.Command

open Birokrasi.Text

inductive Takes where
  | nothing
  | int
  | float
  | text
  | oneOf (choices : List Int)

structure Flag where
  name : String
  takes : Takes
  help : String

structure Form where
  program : String
  description : Option String := none
  file : String
  flags : List Flag := []

inductive Setting where
  | on
  | int (n : Int)
  | float (x : Float)
  | text (s : String)

structure Arguments where
  file : String
  settings : Table String Setting := []

namespace Arguments

def isOn (a : Arguments) (name : String) : Bool := a.settings.has name

def int? (a : Arguments) (name : String) : Option Int :=
  match a.settings.get? name with
  | some (.int n) => some n
  | _ => none

def float? (a : Arguments) (name : String) : Option Float :=
  match a.settings.get? name with
  | some (.float x) => some x
  | _ => none

def text? (a : Arguments) (name : String) : Option String :=
  match a.settings.get? name with
  | some (.text s) => some s
  | _ => none

end Arguments

inductive Stop where
  | help
  | misuse

/-! ## Reading -/

/-- A value that is written with its flag. A short flag has it without a sign between. -/
inductive Attached where
  | none
  | after (value : String)
  | joined (value : String)

/-- What comes of the flag for help. It takes no value, but letters may follow its short form. -/
def Attached.onHelp : Attached → Stop
  | .none => .help
  | .after _ => .misuse
  | .joined more =>
    match (more.toList.dropWhile (· = 'h')).head? with
    | some c => if c = '-' || c = '=' then .misuse else .help
    | Option.none => .help

inductive Token where
  | word (text : String)
  | flag (flag : Flag) (attached : Attached)
  | help (attached : Attached)
  /-- What follows are words only. -/
  | rest
  | unknown

def looksNegative (s : List Char) : Bool :=
  match s with
  | '-' :: digits =>
    let after := digits.dropWhile isDigit
    (!digits.isEmpty && after.isEmpty) ||
      (match after with
        | '.' :: places => !places.isEmpty && places.all isDigit
        | _ => false)
  | _ => false

def plainToken (arg : String) : Token :=
  if looksNegative arg.toList || arg.toList.contains ' ' then .word arg else .unknown

/-- What an argument with two dashes is: a flag, or the start of exactly one. -/
def longToken (flags : List Flag) (arg : String) : Except Stop Token :=
  let (lead, attached) :=
    match cut? ['='] arg.toList with
    | some (lead, value) => (lead, Attached.after (String.ofList value))
    | none => (arg.toList, Attached.none)
  let named := fun (name : String) => "--" ++ name
  match flags.find? fun f => (named f.name).toList = lead with
  | some f => .ok (.flag f attached)
  | none =>
    if lead = "--help".toList then .ok (.help attached)
    else
      let fits := fun (name : String) => startsWith (named name).toList lead
      let candidates :=
        (if fits "help" then [Token.help attached] else []) ++
          (flags.filter fun f => fits f.name).map fun f => Token.flag f attached
      match candidates with
      | [] => .ok (plainToken arg)
      | [token] => .ok token
      | _ => .error .misuse

def token (flags : List Flag) (arg : String) : Except Stop Token :=
  match arg.toList with
  | '-' :: '-' :: _ => if arg = "--" then .ok .rest else longToken flags arg
  | ['-', 'h'] => .ok (.help .none)
  | '-' :: 'h' :: more => .ok (.help (.joined (String.ofList more)))
  | '-' :: _ :: _ => .ok (plainToken arg)
  | _ => .ok (.word arg)

/-- What arguments are. After two dashes alone all are words. -/
def tokens (flags : List Flag) : List String → Except Stop (List Token)
  | [] => .ok []
  | arg :: args => do
    match ← token flags arg with
    | .rest => return .rest :: args.map .word
    | t => return t :: (← tokens flags args)

def Flag.read? (f : Flag) (text : String) : Option Setting :=
  match f.takes with
  | .nothing => none
  | .int => (Decimal.readInt text.toList).toOption.map .int
  | .float => (Decimal.readFloat? text.toList).map .float
  | .text => some (.text text)
  | .oneOf choices =>
    match (Decimal.readInt text.toList).toOption with
    | some n => if choices.contains n then some (.int n) else none
    | none => none

structure Progress where
  file : Option String := none
  settings : Table String Setting := []
  /-- Whether something is too much. -/
  excess : Bool := false

def Progress.set (p : Progress) (f : Flag) (text : String) : Except Stop Progress :=
  match f.read? text with
  | some v => .ok { p with settings := p.settings.put f.name v }
  | none => .error .misuse

/-- Reads tokens. A mistake in a flag counts at once, something too much only at the end. -/
def Progress.read : Progress → List Token → Except Stop Progress
  | p, [] => .ok p
  | p, .word s :: rest =>
    match p.file, rest with
    | none, .rest :: rest => Progress.read { p with file := some s } rest
    | none, rest => Progress.read { p with file := some s } rest
    | some _, rest => Progress.read { p with excess := true } rest
  | p, .rest :: rest =>
    match p.file, rest with
    | none, .word s :: rest => Progress.read { p with file := some s } rest
    | _, rest => Progress.read { p with excess := true } rest
  | p, .unknown :: rest => Progress.read { p with excess := true } rest
  | _, .help attached :: _ => .error attached.onHelp
  | p, .flag f attached :: rest =>
    match f.takes, attached, rest with
    | .nothing, .none, rest => Progress.read { p with settings := p.settings.put f.name .on } rest
    | .nothing, _, _ => .error .misuse
    | _, .after s, rest | _, .joined s, rest =>
      match p.set f s with
      | .ok p => Progress.read p rest
      | .error e => .error e
    | _, .none, .word s :: rest =>
      match p.set f s with
      | .ok p => Progress.read p rest
      | .error e => .error e
    | _, .none, _ => .error .misuse

def Form.read (form : Form) (args : List String) : Except Stop Arguments := do
  let p ← Progress.read {} (← tokens form.flags args)
  match p.file with
  | some file => if p.excess then throw .misuse else return { file, settings := p.settings }
  | none => throw .misuse

/-! ## Help -/

def lineWidth : Nat := 78

def nameWidth : Nat := 24

def spaces (n : Nat) : String := String.ofList (List.replicate n ' ')

def Flag.placeholder? (f : Flag) : Option String :=
  match f.takes with
  | .nothing => none
  | .oneOf choices => some ("\x7b" ++ ",".intercalate (choices.map Decimal.intText) ++ "\x7d")
  | _ =>
    some (String.ofList (f.name.toList.map fun c => if c = '-' then '_' else c.toUpper))

def Flag.shape (f : Flag) : String :=
  match f.placeholder? with
  | some p => "--" ++ f.name ++ " " ++ p
  | none => "--" ++ f.name

/-- Parts put into lines of a width, all but the first behind an indent. A line holds as many parts as
fit, and one in any case; `used` is the width taken in the current line. -/
def wrapped (indent : Nat) : (line : List String) → (used : Nat) → List String → List String
  | line, _, [] => if line.isEmpty then [] else [" ".intercalate line.reverse]
  | line, used, part :: parts =>
    if lineWidth < used + 1 + part.length && !line.isEmpty then
      " ".intercalate line.reverse :: wrapped indent [part] (indent + part.length) parts
    else wrapped indent (part :: line) (used + 1 + part.length) parts

def usageLines (program : String) (options operands : List String) : String :=
  let start := "usage: "
  let whole := start ++ " ".intercalate (program :: options ++ operands)
  if whole.length ≤ lineWidth then whole
  else
    let indent := start.length + program.length + 1
    let first := wrapped indent [] (start.length - 1) (program :: options)
    let second := wrapped indent [] (indent - 1) operands
    start ++ ("\n" ++ spaces indent).intercalate (first ++ second)

def entryLine (column indent : Nat) (name help : String) : String :=
  let front := spaces indent ++ name
  if front.length + 2 ≤ column then front ++ spaces (column - front.length) ++ help
  else front ++ "\n" ++ spaces column ++ help

def helpColumn (names : List (Nat × String)) : Nat :=
  min nameWidth ((names.map fun (indent, name) => indent + name.length).foldl max 0 + 2)

def helpEntry : String × String := ("-h, --help", "show this help message and exit")

def Form.help (form : Form) : String :=
  let entries := helpEntry :: form.flags.map fun f => (f.shape, f.help)
  let column := helpColumn ((2, "file") :: entries.map fun e => (2, e.1))
  usageLines form.program ("[-h]" :: form.flags.map fun f => "[" ++ f.shape ++ "]") ["file"] ++ "\n\n" ++
    (match form.description with
      | some d => d ++ "\n\n"
      | none => "") ++
    "positional arguments:\n" ++ entryLine column 2 "file" form.file ++ "\n\noptions:\n" ++
    String.join (entries.map fun e => entryLine column 2 e.1 e.2 ++ "\n")

end Birokrasi.Command
