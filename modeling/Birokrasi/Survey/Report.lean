import Birokrasi.Json.Read
import Birokrasi.Json.Write
import Birokrasi.Survey.Verdict
import Birokrasi.Text.Blank

/-!
# The report of a survey

A survey measures which statements the workloads reach, how much of their time is spent in the
project, and whether their results check themselves. It prints a report and adds a line to a journal
of rounds. The measurements are made by helpers, of which only the answers matter here.
-/

namespace Birokrasi.Survey

open Birokrasi.Json (field? field named)

/-! ## Helpers -/

inductive Helper where
  | coverage
  | timing
  | changes
  | checking
  deriving DecidableEq

inductive HelperEnd where
  | ended (code : Int) (out err : String)
  | failed (reason : String)

/-- What surrounds a survey: what is on the desk, the helpers, and the clocks. -/
structure Desk where
  coverage : Option String
  workloads : Option String
  journal : Option String
  hasTiming : Bool
  hasChecking : Bool
  helper : Helper → HelperEnd
  started : Value
  finished : Value
  now : Value

inductive ReportEnd where
  | done
  | left (code : Int)
  | failed (reason : String)
  | badRecord (reason : Json.Error)

structure Report where
  out : List String
  err : String
  called : List Helper
  journal : Option String
  ending : ReportEnd

def lastRecord (text : String) : Value :=
  match (Text.lines (Text.trimString text)).getLast? with
  | some line => (Json.read line).toOption.getD .none
  | none => .none

/-- What a helper printed, and what it said besides; nothing for one that failed. -/
def HelperEnd.texts : HelperEnd → String × String
  | .ended _ out err => (out, err)
  | .failed _ => ("", "")

/-! ## Times -/

def timeTarget : Float := 50.0

def timeFloor : Float := 45.0

/-- How much of its time each workload spends in the project, in percent, negative for one that
failed, and where the rest goes. -/
structure Times where
  shares : List (String × Float)
  elsewhere : List (String × Value)

def Times.ofRecord (v : Value) : Times :=
  { shares := (named (field v "repo_time_pct")).map fun e => (e.1, amount e.2)
    elsewhere := named (field v "hot_ext") }

def isLow (share : Float) : Bool := 0.0 ≤ share && share < timeFloor

def Times.measured (t : Times) : Nat := (t.shares.filter fun e => 0.0 ≤ e.2).length

def Times.low (t : Times) : Nat := (t.shares.filter fun e => isLow e.2).length

def Times.low? (t : Times) : Option Nat := if t.measured = 0 then none else some t.low

def placeText : Value → String
  | .list [share, name] => name.shown ++ " " ++ percent 0 (amount share)
  | v => v.shown

def Times.line (t : Times) (e : String × Float) : String :=
  let places :=
    match t.elsewhere.find? (·.1 == e.1) with
    | some (_, .list places) => places.map placeText
    | _ => []
  "  " ++ (if isLow e.2 then "*" else " ") ++ " " ++ Decimal.paddedText 32 e.1 ++ " " ++
    rightward 5 (Decimal.fixed 1 false (if e.2 < 0.0 then 0.0 else e.2)) ++ "%" ++
    (if e.2 < 0.0 then "  <error>"
      else if isLow e.2 && !places.isEmpty then " (hot: " ++ " ".intercalate places ++ ")"
      else "")

def Times.lines (t : Times) : List String :=
  if t.shares.isEmpty then []
  else
    ["", "repo_time (target " ++ percent 0 timeTarget ++ "; * = below " ++ percent 0 timeFloor ++
      "):"] ++
      (t.shares.mergeSort fun x y => decide (x.2 ≤ y.2)).map t.line

/-! ## Checks -/

def changedNames (status : String) : List String :=
  ((Text.lines status).filter fun l => Text.trimString l ≠ "").map fun l =>
    String.ofList (l.toList.drop 3)

def changesShown : Nat := 10

def checkLines (changed : List String) (evidence : List Evidence) : List String :=
  if evidence.isEmpty then []
  else
    (if changed.isEmpty then []
      else
        ["", "** repo modified (" ++ toString changed.length ++
          " file(s)) — revert these; only microbench.py is yours to edit:"] ++
          (changed.take changesShown).map ("   " ++ ·)) ++
    ["", "self-check (* = fix needed):"] ++
    Verdict.advice.map (fun a => "  " ++ a.1.text ++ ": " ++ a.2) ++
    evidence.map (·.line !changed.isEmpty)

/-! ## Rounds -/

/-- The records of earlier rounds; `none` if a line is none. -/
def rounds? (journal : String) : Option (List Value) :=
  ((Text.lines journal).filter fun l => Text.trimString l ≠ "").mapM fun l =>
    match Json.read l with
    | .ok (.record entries) => some (.record entries)
    | _ => none

def nextRound (journal : String) : Nat :=
  ((Text.lines journal).filter fun l => Text.trimString l ≠ "").length + 1

/-- The number of rounds since the least count was reached first, and that count. -/
def sinceBest : List Int → Nat × Int
  | [] => (0, 0)
  | n :: rest =>
    let best := rest.foldl min n
    (rest.length - (n :: rest).idxOf best, best)

def patience : Nat := 3

def coverageFloor : Float := 60.0

def convergence? (share : Float) (earlier : List Int) (low? : Option Nat) : Option String :=
  match low? with
  | none => none
  | some low =>
    if share < coverageFloor then none
    else if low = 0 then some "0 below"
    else
      let (since, best) := sinceBest (earlier ++ [(low : Int)])
      if since < patience then none
      else
        some ("no improvement in " ++ toString since ++ " rounds; best " ++
          Decimal.intText best ++ " below")

def workloadMark : String := "def bench_"

def workloadCount (text : String) : Nat :=
  ((Text.lines text).filter fun l => Text.startsWith l.toList workloadMark.toList).length

structure Round where
  number : Nat
  coverage : Coverage
  times : Times
  changed : List String
  evidence : List Evidence
  workloads : Nat
  measuring : Value

def Round.verdicts (r : Round) : List (String × Verdict) :=
  r.evidence.map fun e => (e.name, e.verdict !r.changed.isEmpty)

def Round.unchecked (r : Round) : Nat := (r.verdicts.filter fun v => v.2 ≠ .ok).length

def Round.record (r : Round) (now sincePrevious seconds : Value) : Value :=
  Json.ofNamed [("round", .int r.number), ("ts", now), ("wall_since_prev_s", sincePrevious),
    ("coverage_pct", r.coverage.share), ("covered_lines", r.coverage.covered),
    ("num_statements", r.coverage.statements), ("n_bench_fns", .int r.workloads),
    ("n_bench_errors", .int r.coverage.errors.length), ("cov_measure_s", seconds),
    ("repo_time_pct", Json.ofNamed (r.times.shares.map fun e => (e.1, .float e.2))),
    ("n_below_repo_time", r.times.low?.elim .none fun n => .int n),
    ("semcheck", Json.ofNamed (r.verdicts.map fun v => (v.1, .text v.2.text))),
    ("n_not_self_checking", .int r.unchecked)]

def Round.summary (r : Round) : String :=
  let share (n count : Nat) (what : String) : List String :=
    [toString n ++ "/" ++ toString count ++ what]
  "[round " ++ toString r.number ++ ": " ++
    ", ".intercalate
      ([toString r.workloads ++ " benches",
        Decimal.fixed 1 false (amount r.coverage.share) ++ "% covered"] ++
      (if r.times.shares.isEmpty then []
        else share r.times.low r.times.measured (" below repo_time " ++ percent 0 timeFloor)) ++
      (if r.evidence.isEmpty then []
        else share r.unchecked r.evidence.length " not self-checking") ++
      ["measured in " ++ Decimal.fixed 1 false (amount r.measuring) ++ "s"]) ++ "]"

def Round.lines (r : Round) : List String :=
  r.coverage.table ++ r.coverage.errorLines ++ r.times.lines ++ checkLines r.changed r.evidence ++
    ["", r.summary]

/-- The journal after a round, and why the survey is over if it is; a journal with a line that is no
record is left as it is. -/
def Round.enter (r : Round) (d : Desk) : Option String × Option String :=
  let journal := d.journal.getD ""
  match rounds? journal with
  | none => (d.journal, none)
  | some earlier =>
    let previous := (earlier.getLast?.bind (field? · "ts")).getD .none
    let sincePrevious := if previous.truthy then elapsed 2 d.now previous else .float 0.0
    let seconds := elapsed 3 d.finished d.started
    match Json.write true (r.record d.now sincePrevious seconds) with
    | .error _ => (d.journal, none)
    | .ok line =>
      let counts := earlier.filterMap fun e => (field? e "n_below_repo_time").bind Value.int?
      (some (journal ++ line ++ "\n"), convergence? (amount r.coverage.share) counts r.times.low?)

/-! ## The survey -/

def stopLines (reason : String) : List String :=
  ["", ">>> STOP: repo_time converged (" ++ reason ++ "). Finalize microbench.py now. <<<"]

def measuredReport (d : Desk) (coverage : Value) : Report :=
  let (timesOut, timesErr) := if d.hasTiming then (d.helper .timing).texts else ("", "")
  let (status, _) := if d.hasChecking then (d.helper .changes).texts else ("", "")
  let (checks, checksErr) := if d.hasChecking then (d.helper .checking).texts else ("", "")
  let round : Round :=
    { number := nextRound (d.journal.getD "")
      coverage := .ofRecord coverage
      times := .ofRecord (lastRecord timesOut)
      changed := changedNames status
      evidence := (named (field (lastRecord checks) "semcheck")).filterMap Evidence.ofNamed?
      workloads := (d.workloads.map workloadCount).getD 0
      measuring := (d.finished.sub d.started).toOption.getD .none }
  let (journal, stop?) := round.enter d
  { out := round.lines ++ (stop?.map stopLines).getD []
    err := timesErr ++ checksErr
    called := .coverage :: (if d.hasTiming then [.timing] else []) ++
      (if d.hasChecking then [.changes, .checking] else [])
    journal := journal
    ending := .done }

/-- The report of a survey. Without a record of the coverage it ends with the code of the helper, or
with one. -/
def report (d : Desk) : Report :=
  match d.helper .coverage with
  | .failed reason => ⟨[], "", [.coverage], d.journal, .failed reason⟩
  | .ended code out err =>
    match d.coverage with
    | some text =>
      if code = 0 then
        match Json.read text with
        | .ok record => measuredReport d record
        | .error e => ⟨[], "", [.coverage], d.journal, .badRecord e⟩
      else ⟨failure code out, err, [.coverage], d.journal, .left code⟩
    | none => ⟨failure code out, err, [.coverage], d.journal, .left (if code = 0 then 1 else code)⟩
where
  failure (code : Int) (out : String) : List String :=
    ["coverage measurement failed (exit " ++ Decimal.intText code ++ ")", out]

end Birokrasi.Survey
