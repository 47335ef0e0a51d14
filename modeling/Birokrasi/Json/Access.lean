import Birokrasi.Value.Basic

/-!
# Access to records

The parts of a value that was read as JSON. A part that is missing, or of another kind than the one
asked for, counts as empty.
-/

namespace Birokrasi.Json

def field? (v : Value) (name : String) : Option Value :=
  match v with
  | .record entries =>
    entries.findSome? fun e =>
      match e.1 with
      | .text key => if key = name then some e.2 else none
      | _ => none
  | _ => none

/-- The entry of a record under a name, or nothing. -/
def field (v : Value) (name : String) : Value := (field? v name).getD .none

def named : Value → List (String × Value)
  | .record entries =>
    entries.filterMap fun e =>
      match e.1 with
      | .text key => some (key, e.2)
      | _ => none
  | _ => []

def itemsOf : Value → List Value
  | .list xs => xs
  | _ => []

def str : Value → String
  | .text s => s
  | _ => ""

def ofNamed (entries : List (String × Value)) : Value :=
  .record (entries.map fun e => (.text e.1, e.2))

@[simp]
theorem named_ofNamed (entries : List (String × Value)) : named (ofNamed entries) = entries := by
  induction entries with
  | nil => rfl
  | cons e rest ih => exact congrArg (e :: ·) ih

end Birokrasi.Json
