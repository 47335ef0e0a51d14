/-!
# Tables

Finite maps that remember the order in which keys first came: a key that is put again keeps its
place. `get?_put` says what a table holds after a `put`, and `keys_put` in which order.
-/

namespace Birokrasi

/-- A finite map in the order of insertion. -/
abbrev Table (κ α : Type) := List (κ × α)

namespace Table

variable {κ α : Type} [DecidableEq κ]

def get? (key : κ) : Table κ α → Option α
  | [] => none
  | (k, v) :: rest => if k = key then some v else get? key rest

def has (key : κ) (t : Table κ α) : Bool := (t.get? key).isSome

def put (key : κ) (value : α) : Table κ α → Table κ α
  | [] => [(key, value)]
  | (k, v) :: rest => if k = key then (k, value) :: rest else (k, v) :: put key value rest

def erase (key : κ) (t : Table κ α) : Table κ α := t.filter fun e => e.1 ≠ key

def keys (t : Table κ α) : List κ := t.map Prod.fst

@[simp] theorem get?_nil (key : κ) : get? key ([] : Table κ α) = none := rfl

/-- A `put` changes the value of its key only. -/
theorem get?_put (key other : κ) (value : α) (t : Table κ α) :
    (t.put key value).get? other = if key = other then some value else t.get? other := by
  induction t with
  | nil => simp [put, get?]
  | cons e rest ih =>
    obtain ⟨k, v⟩ := e
    by_cases hk : k = key
    · subst hk
      by_cases ho : k = other <;> simp [put, get?, ho]
    · by_cases ho : k = other
      · subst ho
        simp [put, get?, hk, Ne.symm hk]
      · simp [put, get?, hk, ho, ih]

/-- A new key comes last, a known one keeps its place. -/
theorem keys_put (key : κ) (value : α) (t : Table κ α) :
    (t.put key value).keys = if t.has key then t.keys else t.keys ++ [key] := by
  induction t with
  | nil => simp [put, has, keys]
  | cons e rest ih =>
    obtain ⟨k, v⟩ := e
    by_cases hk : k = key
    · simp [put, has, get?, keys, hk]
    · simp only [put, hk, if_false, keys, List.map_cons, has, get?] at ih ⊢
      rw [ih]
      split <;> simp_all

end Table

end Birokrasi
