import Birokrasi.Decimal.Read
import Birokrasi.Json.Access
import Birokrasi.Text.Split
import Birokrasi.Value.Arithmetic

/-!
# Coverage

The table of the covered files, and the numbers in it. A missing number counts as zero.
-/

namespace Birokrasi.Survey

open Birokrasi.Json (field? field named itemsOf)

def amount (v : Value) : Float := (v.number?.bind fun n => n.toFloat.toOption).getD 0.0

def roundPlaces (count : Nat) (x : Float) : Float :=
  (Decimal.readFloat? (Decimal.fixed count false x).toList).getD x

/-- The difference of two points in time rounded to a number of places. Whole numbers stay whole. -/
def elapsed (count : Nat) (finish start : Value) : Value :=
  match finish.sub start with
  | .ok (.float x) => .float (roundPlaces count x)
  | .ok v => v
  | .error _ => .float 0.0

def rightward (width : Nat) (s : String) : String :=
  String.ofList (List.replicate (width - s.length) ' ') ++ s

def percent (width : Nat) (x : Float) : String := rightward width (Decimal.fixed 0 false x) ++ "%"

/-! ## The table of files -/

structure FileCoverage where
  name : String
  statements : Value
  missing : Value
  share : Float
  missingLines : List Value

def localName (name : String) : String :=
  match Text.after? "/repo/".toList name.toList with
  | some rest => String.ofList rest
  | none => name

def FileCoverage.ofNamed (e : String × Value) : FileCoverage :=
  let summary := field e.2 "summary"
  { name := localName e.1
    statements := (field? summary "num_statements").getD (.int 0)
    missing := (field? summary "missing_lines").getD (.int 0)
    share := amount (field summary "percent_covered")
    missingLines := itemsOf (field e.2 "missing_lines") }

/-- The order of the table: the least covered file first, of two alike the larger one. -/
def FileCoverage.before (x y : FileCoverage) : Bool :=
  x.share < y.share || (x.share == y.share && amount y.statements ≤ amount x.statements)

/-- The most characters of a name, and the most missing lines, that a row shows. -/
def nameWidth : Nat := 60

def linesShown : Nat := 12

def missingText (lines : List Value) : String :=
  ",".intercalate ((lines.take linesShown).map Value.shown) ++
    (if linesShown < lines.length then "…" else "")

def rowText (width : Nat) (name : String) (statements missing : Value) (share : Float) : String :=
  Decimal.paddedText width (String.ofList (name.toList.take nameWidth)) ++ "  " ++
    rightward 5 statements.shown ++ "  " ++ rightward 4 missing.shown ++ "  " ++ percent 4 share

structure Coverage where
  share : Value
  covered : Value
  statements : Value
  files : List FileCoverage
  errors : List (String × Value)

def Coverage.ofRecord (v : Value) : Coverage :=
  let totals := field v "totals"
  { share := (field? totals "percent_covered").getD (.float 0.0)
    covered := (field? totals "covered_lines").getD (.int 0)
    statements := (field? totals "num_statements").getD (.int 0)
    files := ((named (field v "files")).map .ofNamed).mergeSort FileCoverage.before
    errors := named (field (field v "meta") "_pti_bench_errors") }

def Coverage.table (c : Coverage) : List String :=
  let width := min nameWidth (c.files.foldl (fun w f => max w f.name.length) 4)
  let rule := String.ofList (List.replicate (width + 42) '-')
  [Decimal.paddedText width "Name" ++ "  Stmts  Miss  Cover  Missing", rule] ++
    c.files.map (fun f =>
      rowText width f.name f.statements f.missing f.share ++ "  " ++ missingText f.missingLines) ++
    [rule,
      rowText width "TOTAL" c.statements ((c.statements.sub c.covered).toOption.getD (.int 0))
        (amount c.share)]

def errorsShown : Nat := 8

def Coverage.errorLines (c : Coverage) : List String :=
  if c.errors.isEmpty then []
  else
    ["", toString c.errors.length ++ " bench error(s):"] ++
      (c.errors.take errorsShown).map fun e => "  " ++ e.1 ++ ": " ++ e.2.shown

end Birokrasi.Survey
