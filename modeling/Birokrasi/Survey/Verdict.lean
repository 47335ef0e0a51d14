import Birokrasi.Survey.Coverage

/-!
# Verdicts on workloads

A workload checks itself if its result can tell a changed program from an unchanged one. The verdict
is `ok`, or the first reason, in a fixed order, why it cannot.
-/

namespace Birokrasi.Survey

open Birokrasi.Json (field named itemsOf)

inductive Verdict where
  | modified
  | error
  | returnsNone
  | unstable
  | returnsInput
  | lowShare
  | tooFast
  | unparameterized
  | invariant
  | ok
  deriving DecidableEq

namespace Verdict

def text : Verdict → String
  | .modified => "repo-modified"
  | .error => "error"
  | .returnsNone => "returns-none"
  | .unstable => "unstable"
  | .returnsInput => "returns-input"
  | .lowShare => "low-repo-time"
  | .tooFast => "too-fast"
  | .unparameterized => "unparameterized"
  | .invariant => "param-invariant"
  | .ok => "ok"

def advice : List (Verdict × String) :=
  [(.returnsNone, "run() has no return — collect and return the call results"),
    (.unstable, "seed RNG in setup; avoid time/uuid/id in the return"),
    (.returnsInput, "return repo output, not the parameter value"),
    (.lowShare, "<50% of run() time is in repo code — move glue to setup"),
    (.invariant, "return something derived from run()'s work, not setup"),
    (.modified, "revert edits to repo files (git checkout -- <path>)")]

end Verdict

/-- The middle of some numbers, for an even count the mean of the middle two; zero for none. -/
def median (xs : List Float) : Float :=
  let sorted := xs.mergeSort fun x y => decide (x ≤ y)
  let middle := sorted.length / 2
  if sorted.length % 2 = 1 then sorted.getD middle 0.0
  else if sorted.isEmpty then 0.0
  else (sorted.getD (middle - 1) 0.0 + sorted.getD middle 0.0) / 2.0

def least : List Float → Float
  | [] => 0.0
  | x :: rest => rest.foldl (fun m y => if y < m then y else m) x

structure Evidence where
  name : String
  result : String
  stable : List String
  bySetting : List String
  parameters : List String
  share : Float
  milliseconds : Float

def textsOf (vs : List Value) : List String := vs.map Value.shown

def Evidence.ofNamed? (e : String × Value) : Option Evidence :=
  match e.2 with
  | .record _ =>
    let result := field e.2 "ret_type"
    some
      { name := e.1
        result := if result.truthy then result.shown else "?"
        stable := textsOf (itemsOf (field e.2 "fp_stable"))
        bySetting := textsOf ((named (field e.2 "fp_by_param")).map Prod.snd)
        parameters := textsOf (itemsOf (field e.2 "param_fps"))
        share := least ((named (field e.2 "repo_frac")).map fun p => amount p.2)
        milliseconds := median ((named (field e.2 "repo_tt_ms")).map fun p => amount p.2) }
  | _ => none

def Evidence.verdict (modified : Bool) (e : Evidence) : Verdict :=
  if modified then .modified
  else if Text.startsWith e.result.toList ['<'] then .error
  else if e.result = "NoneType" then .returnsNone
  else if e.stable.eraseDups.length ≠ 1 then .unstable
  else if e.stable.any (e.parameters.contains ·) then .returnsInput
  else if e.share < 0.5 then .lowShare
  else if e.milliseconds < 1.0 then .tooFast
  else if e.bySetting.length < 2 then .unparameterized
  else if e.bySetting.eraseDups.length = 1 then .invariant
  else .ok

/-- A line about a workload. Those that need work are marked. -/
def Evidence.line (modified : Bool) (e : Evidence) : String :=
  let v := e.verdict modified
  "  " ++ (if v = .ok then " " else "*") ++ " " ++ Decimal.paddedText 32 e.name ++ " " ++
    Decimal.paddedText 16 v.text ++ " (" ++ e.result ++ ", repo " ++ percent 0 (100.0 * e.share) ++
    ") " ++ Decimal.fixed 1 false e.milliseconds ++ "ms"

end Birokrasi.Survey
