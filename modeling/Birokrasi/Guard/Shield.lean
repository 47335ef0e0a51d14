import Birokrasi.Guard.Watch
import Birokrasi.Random.Twister

/-!
# The shield

A watch, an analyst and a source of decoys in one (`ExecutionShield`, `DecoyGenerator`), as the guarded
machine uses them.
-/

namespace Birokrasi.Guard

/-- What can be asked about a run, by name. -/
abbrev Snapshot := String → Option Value

def Snapshot.getD (s : Snapshot) (name : String) (default : Value) : Value := (s name).getD default

def decoyFlags : List String :=
  ["FLAG\x7bF4K3_FL4G_N1C3_TRY\x7d", "FLAG\x7bTH1S_1S_N0T_TH3_FL4G\x7d",
    "FLAG\x7bY0U_4R3_CL0S3_BUT_N0\x7d", "FLAG\x7bDEB00G_M0D3_CH3AT3R\x7d",
    "FLAG\x7bDECRYPT_ME_IF_U_CAN\x7d"]

structure Shield where
  watch : Watch := {}
  analyst : Analyst := {}
  rng : Twister

namespace Shield

def start (paranoia seed : Int) (now : Value) : Shield where
  watch := { paranoia, started := now }
  rng := Twister.ofSeed seed

def decoy (s : Shield) : String × Shield :=
  let (flag, rng) := s.rng.choice "" decoyFlags
  (flag, { s with rng })

/-- Whether to show a decoy: always in a debugger, and now and then in the first hundred steps. -/
def wantsDecoy (s : Shield) (state : Snapshot) : Except Fault (Bool × Shield) := do
  if (state.getD "debug_mode" (.bool false)).truthy then return (true, s)
  if (← (state.getD "step_count" (.int 0)).less (.int 100)) then
    let (u, rng) := s.rng.unit
    return (u < 0.3, { s with rng })
  return (false, s)

/-- An action on a shield that prints lines and keeps what was done before an alarm. -/
abbrev Act := ExceptT Alarm (StateM (Shield × List String))

def calculate {α : Type} (r : Except Fault α) : Act α :=
  match r with
  | .ok a => pure a
  | .error f => throw (.fault f)

def print (line : String) : Act Unit := modify fun (s, lines) => (s, lines ++ [line])

def springTrap : Act Unit := do
  match (← get).1.watch.trap with
  | .ok (some line) => print line
  | .ok none => pure ()
  | .error e => throw e

def onOperation (op : Int) (state : Snapshot) : Act Unit := do
  if 2 ≤ (← get).1.watch.paranoia then
    let (s, lines) ← get
    let (tooOften, analyst) := s.analyst.note op
    set ({ s with analyst }, lines)
    if tooOften then springTrap
  if 1 ≤ (← get).1.watch.paranoia then
    let (s, lines) ← get
    let (wanted, s) ← calculate (s.wantsDecoy state)
    set (s, lines)
    -- The draw is made in any run, but a decoy is shown in a debugger only.
    if wanted && (state.getD "debug_mode" .none).truthy then
      let (flag, s) := s.decoy
      set (s, lines)
      print ("[DECOY] " ++ flag)

def calm (s : Shield) : Bool := !(s.watch.detected || s.analyst.detected)

def checkSurroundings (s : Shield) (now : Value) : Except Fault (Bool × Shield) := do
  let (slow, watch) ← s.watch.noteStep now
  let (long, watch) ← watch.checkElapsed now
  return (slow || long, { s with watch })

end Shield

end Birokrasi.Guard
