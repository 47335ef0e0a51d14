import Birokrasi.Survey.Sample
import Birokrasi.Table

/-!
# Probes of workloads

A probe runs a workload twice as it stands and once for each of its settings, and keeps the
fingerprints of what came back. The first failure ends a probe, which then holds nothing but the
name of the failure. Workloads are given from outside: none is part of this library.
-/

namespace Birokrasi.Survey

abbrev Setting := List (String × Sample)

/-- A workload: its name, its settings, and what it gives back, or the name of the failure it ends
in. -/
structure Workload where
  name : String
  settings : List Setting
  run : Setting → Except String Sample

structure Finding where
  result : String
  stable : List String
  bySetting : Table String String
  parameters : List String
  timed : List String

def plainLabel : String := "<default>"

def Setting.label (s : Setting) : String :=
  ",".intercalate (s.map fun p => p.1 ++ "=" ++ p.2.shown)

/-- The findings of a workload all of whose runs succeed. -/
def Workload.findings (w : Workload) : Except String Finding := do
  let first ← w.run []
  let second ← w.run []
  let results ← w.settings.mapM fun s => return (s.label, (← w.run s).fingerprint)
  let bySetting : Table String String := results.foldl (fun t r => t.put r.1 r.2) []
  return {
    result := first.typeName
    stable := [first.fingerprint, second.fingerprint]
    bySetting := bySetting
    parameters := w.settings.flatMap fun s => s.map fun p => p.2.fingerprint
    timed := plainLabel :: bySetting.keys }

def Workload.probe (w : Workload) : Finding :=
  match w.findings with
  | .ok f => f
  | .error failure => ⟨"<" ++ failure ++ ">", [], [], [], []⟩

def probeAll (ws : List Workload) : List (String × Finding) :=
  (ws.mergeSort fun x y => decide (x.name ≤ y.name)).map fun w => (w.name, w.probe)

end Birokrasi.Survey
