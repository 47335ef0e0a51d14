import Birokrasi.Text.Blank

/-!
# Cutting texts

Finding a text inside another, and cutting, splitting and replacing there. The first occurrence
counts. `cut?_eq_some` says that a cut loses nothing but the separator.
-/

namespace Birokrasi.Text

/-- The rest of `s` after `lead`, if `s` starts with `lead`. -/
def after? : (lead s : List Char) → Option (List Char)
  | [], s => some s
  | _ :: _, [] => none
  | l :: lead, c :: s => if l = c then after? lead s else none

def startsWith (s lead : List Char) : Bool := (after? lead s).isSome

def endsWith (s last : List Char) : Bool := (after? last.reverse s.reverse).isSome

/-- The texts before and after the first occurrence of `sep`. -/
def cut? (sep : List Char) : List Char → Option (List Char × List Char)
  | [] => if sep = [] then some ([], []) else none
  | c :: s =>
    match after? sep (c :: s) with
    | some rest => some ([], rest)
    | none => (cut? sep s).map fun (before, rest) => (c :: before, rest)

def occursIn (sub s : List Char) : Bool := (cut? sub s).isSome

def splitOn (sep : Char) : List Char → List (List Char)
  | [] => [[]]
  | c :: s =>
    if c = sep then [] :: splitOn sep s
    else
      match splitOn sep s with
      | [] => [[c]]
      | piece :: rest => (c :: piece) :: rest

/-- A text with every occurrence of `sub` replaced, from the left and without overlap; `skip`
characters of an occurrence are still to be dropped. -/
def replaceFrom (sub by' : List Char) : Nat → List Char → List Char
  | _, [] => []
  | skip + 1, _ :: s => replaceFrom sub by' skip s
  | 0, c :: s =>
    if startsWith (c :: s) sub then by' ++ replaceFrom sub by' (sub.length - 1) s
    else c :: replaceFrom sub by' 0 s

def replace (sub by' s : List Char) : List Char := replaceFrom sub by' 0 s

def lines (text : String) : List String :=
  let step := fun (state : List Char × List String) (c : Char) =>
    if c = '\n' then ([], String.ofList state.1.reverse :: state.2) else (c :: state.1, state.2)
  let (last, done) := text.toList.foldl step ([], [])
  (String.ofList last.reverse :: done).reverse

/-- The lines of a text, each with its line feed; nothing follows a final line feed. -/
def linesKept (text : String) : List String :=
  match (lines text).reverse with
  | [] => []
  | last :: front => front.reverse.map (· ++ "\n") ++ (if last.isEmpty then [] else [last])

def join (sep : String) (texts : List String) : String := sep.intercalate texts

/-- The items from a place on. A place counted from the end is followed by the items up to the end
and then by all of them; `none` if there is no such place. -/
def itemsFrom? {α : Type} (items : List α) (start : Int) : Option (List α) :=
  if 0 ≤ start then some (items.drop start.toNat)
  else if (items.length : Int) < -start then none
  else some (items.drop ((items.length : Int) + start).toNat ++ items)

theorem itemsFrom?_natCast {α : Type} (items : List α) (start : Nat) :
    itemsFrom? items (start : Int) = some (items.drop start) := by
  simp [itemsFrom?]

theorem eq_append_of_after? {lead s rest : List Char} (h : after? lead s = some rest) :
    s = lead ++ rest := by
  induction lead generalizing s with
  | nil => simp_all [after?]
  | cons l lead ih =>
    cases s with
    | nil => simp [after?] at h
    | cons c s =>
      simp only [after?] at h
      split at h
      next e => simp [ih h, e]
      · simp at h

theorem cut?_eq_some {sep s before rest : List Char} (h : cut? sep s = some (before, rest)) :
    s = before ++ sep ++ rest := by
  induction s generalizing before with
  | nil =>
    simp only [cut?] at h
    split at h
    · simp_all
    · simp at h
  | cons c s ih =>
    simp only [cut?] at h
    split at h
    next e => simp_all [eq_append_of_after? e]
    next e =>
      obtain ⟨⟨b, r⟩, hb, he⟩ := Option.map_eq_some_iff.1 h
      simp only [Prod.mk.injEq] at he
      obtain ⟨rfl, rfl⟩ := he
      simp [ih hb]

/-- Both sides of a cut at a non-empty separator are shorter than the whole. -/
theorem length_cut?_lt {sep s before rest : List Char} (h : cut? sep s = some (before, rest))
    (hs : sep ≠ []) : before.length < s.length ∧ rest.length < s.length := by
  have hl : 0 < sep.length := List.length_pos_iff.2 hs
  have := congrArg List.length (cut?_eq_some h)
  simp only [List.length_append] at this
  omega

end Birokrasi.Text
