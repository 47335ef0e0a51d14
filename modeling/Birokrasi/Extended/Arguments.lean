import Birokrasi.Text.Split

/-!
# The extended language: argument lists

The text between the parentheses of a call (`_extract_function_args`), and the texts between the commas
of a list (`_split_arguments`). Quotes and brackets hide what is inside them.
-/

namespace Birokrasi.Extended

open Birokrasi.Text

/-- The quote that is open after a character, given the one open before it. -/
def quoteAfter (quote : Option Char) (c : Char) : Option Char :=
  match quote with
  | some q => if c = q then none else some q
  | none => if c = '"' || c = '\'' then some c else none

def isPlain (quote : Option Char) (c : Char) : Bool :=
  quote.isNone && !(c = '"' || c = '\'')

/-! ## Up to the closing parenthesis -/

/-- The characters up to the parenthesis that closes the one before them; `none` if none does. -/
def uptoClosing (quote : Option Char) (depth : Nat) : List Char → Option (List Char)
  | [] => none
  | c :: rest =>
    if isPlain quote c then
      if c = '(' then (uptoClosing quote (depth + 1) rest).map (c :: ·)
      else if c = ')' then
        match depth with
        | 0 => some []
        | depth + 1 => (uptoClosing quote depth rest).map (c :: ·)
      else (uptoClosing quote depth rest).map (c :: ·)
    else (uptoClosing (quoteAfter quote c) depth rest).map (c :: ·)

def callArguments? (text : List Char) (start : Nat) : Option (List Char) :=
  uptoClosing none 0 (text.drop start)

/-- The text of an argument list that starts at a place of a text, which may be counted from the end.
The first failure is that of a place outside of the text. -/
def argumentsFrom? (text : List Char) (start : Int) : Option (Option (List Char)) :=
  (itemsFrom? text start).map (uptoClosing none 0)

theorem argumentsFrom?_natCast (text : List Char) (start : Nat) :
    argumentsFrom? text (start : Int) = some (callArguments? text start) := by
  simp [argumentsFrom?, callArguments?, itemsFrom?_natCast]

theorem length_uptoClosing {quote : Option Char} {depth : Nat} {s t : List Char}
    (h : uptoClosing quote depth s = some t) : t.length < s.length := by
  induction s generalizing quote depth t with
  | nil => simp [uptoClosing] at h
  | cons c rest ih =>
    simp only [uptoClosing] at h
    split at h
    · split at h
      · obtain ⟨u, hu, rfl⟩ := Option.map_eq_some_iff.1 h
        simpa using ih hu
      · split at h
        · split at h
          · simp only [Option.some.injEq] at h
            subst h
            simp
          · obtain ⟨u, hu, rfl⟩ := Option.map_eq_some_iff.1 h
            simpa using ih hu
        · obtain ⟨u, hu, rfl⟩ := Option.map_eq_some_iff.1 h
          simpa using ih hu
    · obtain ⟨u, hu, rfl⟩ := Option.map_eq_some_iff.1 h
      simpa using ih hu

/-! ## Between commas -/

def bracketStep (c : Char) : Int :=
  if c = '(' || c = '[' || c = '\x7b' then 1
  else if c = ')' || c = ']' || c = '\x7d' then -1
  else 0

/-- A text cut at its commas, outside of quotes and brackets: the piece at the front, and the other
pieces. -/
def cutAtCommas (quote : Option Char) (depth : Int) : List Char → List Char × List (List Char)
  | [] => ([], [])
  | c :: rest =>
    if isPlain quote c then
      if c = ',' && depth = 0 then
        let (first, more) := cutAtCommas quote depth rest
        ([], first :: more)
      else
        let (first, more) := cutAtCommas quote (depth + bracketStep c) rest
        (c :: first, more)
    else
      let (first, more) := cutAtCommas (quoteAfter quote c) depth rest
      (c :: first, more)

/-- The pieces without blanks around them. A last piece that is blank does not count. -/
def withoutBlankLast : List (List Char) → List (List Char)
  | [] => []
  | [last] => if (trim last).isEmpty then [] else [trim last]
  | p :: rest => trim p :: withoutBlankLast rest

def splitArguments (text : List Char) : List (List Char) :=
  let (first, more) := cutAtCommas none 0 text
  withoutBlankLast (first :: more)

theorem length_cutAtCommas {quote : Option Char} {depth : Int} {s p : List Char}
    (h : p ∈ (cutAtCommas quote depth s).1 :: (cutAtCommas quote depth s).2) :
    p.length ≤ s.length := by
  induction s generalizing quote depth p with
  | nil => simp_all [cutAtCommas]
  | cons c rest ih =>
    have key : ∀ (quote : Option Char) (depth : Int),
        p ∈ (c :: (cutAtCommas quote depth rest).1) :: (cutAtCommas quote depth rest).2 →
        p.length ≤ (c :: rest).length := by
      intro quote depth hp
      rcases List.mem_cons.1 hp with rfl | hp
      · have := ih (List.mem_cons_self (a := (cutAtCommas quote depth rest).1)
          (l := (cutAtCommas quote depth rest).2))
        simpa using this
      · have := ih (List.mem_cons_of_mem (cutAtCommas quote depth rest).1 hp)
        simp only [List.length_cons]
        omega
    simp only [cutAtCommas] at h
    split at h
    · split at h
      · rcases List.mem_cons.1 h with rfl | h
        · simp
        · have := ih h
          simp only [List.length_cons]
          omega
      · exact key _ _ h
    · exact key _ _ h

theorem length_withoutBlankLast {ps : List (List Char)} {p : List Char} {n : Nat}
    (hn : ∀ q ∈ ps, q.length ≤ n) (h : p ∈ withoutBlankLast ps) : p.length ≤ n := by
  induction ps with
  | nil => simp [withoutBlankLast] at h
  | cons q rest ih =>
    have hq : (trim q).length ≤ n :=
      Nat.le_trans (length_trim_le q) (hn q List.mem_cons_self)
    cases rest with
    | nil =>
      simp only [withoutBlankLast] at h
      split at h
      · simp at h
      · simp only [List.mem_singleton] at h
        exact h ▸ hq
    | cons r rest =>
      simp only [withoutBlankLast] at h
      rcases List.mem_cons.1 h with rfl | h
      · exact hq
      · exact ih (fun q hq => hn q (List.mem_cons_of_mem _ hq)) h

theorem length_splitArguments_le {text p : List Char} (h : p ∈ splitArguments text) :
    p.length ≤ text.length :=
  length_withoutBlankLast (fun _ hq => length_cutAtCommas hq) h

end Birokrasi.Extended
