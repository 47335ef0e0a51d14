import Birokrasi.Guard.Shield

/-!
# Flags in stages

A flag is given out in parts, each when its condition is first met; the whole flag is known when all
parts have been given out (`FlagStage`, `MultiStageFlagManager`).
-/

namespace Birokrasi.Challenge

open Birokrasi.Guard (Snapshot)

structure Stage where
  id : Int
  part : String
  condition : Snapshot → Except Fault Bool
  unlocked : Bool := false

namespace Stage

/-- Looks whether a stage is met for the first time. -/
def check (s : Stage) (state : Snapshot) : Except Fault (Option String × Stage) := do
  if s.unlocked then return (none, s)
  if (← s.condition state) then return (some s.part, { s with unlocked := true })
  return (none, s)

end Stage

/-- Looks at all stages: the parts given out now, and the stages afterwards. A fault leaves the
stages after it as they are. -/
def checkAll (state : Snapshot) : List Stage → Except Fault (List String) × List Stage
  | [] => (.ok [], [])
  | s :: rest =>
    match s.check state with
    | .error f => (.error f, s :: rest)
    | .ok (part, s) =>
      let (r, rest) := checkAll state rest
      (r.map fun parts => part.toList ++ parts, s :: rest)

def complete (stages : List Stage) : Bool := stages.all (·.unlocked)

/-- The whole flag, its parts in the order of the stages' numbers. -/
def wholeFlag? (stages : List Stage) : Option String :=
  if complete stages then
    some (String.join ((stages.mergeSort fun a b => a.id ≤ b.id).map Stage.part))
  else none

end Birokrasi.Challenge
