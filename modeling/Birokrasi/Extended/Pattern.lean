import Birokrasi.Extended.Arguments
import Birokrasi.Text.Class

/-!
# The extended language: shapes of texts

The shapes that lines and expressions are recognised by. A shape that does not fit gives `none`; the
parts that it gives are shorter than the text.
-/

namespace Birokrasi.Extended

open Birokrasi.Text

/-- What stands between the first and the last character, if these are the given ones. -/
def between? (first last : Char) (s : List Char) : Option (List Char) :=
  match s with
  | [] => none
  | c :: rest => if c = first ∧ s.getLast? = some last then some rest.dropLast else none

def word? (s : List Char) : Option (List Char × List Char) :=
  let word := s.takeWhile isWord
  if word.isEmpty then none else some (word, s.dropWhile isWord)

/-- A text up to the first occurrence of a character, which must be in the same line. -/
def uptoInLine? (stop : Char) : List Char → Option (List Char)
  | [] => none
  | c :: s =>
    if c = stop then some []
    else if c = '\n' then none
    else (uptoInLine? stop s).map (c :: ·)

/-- The shortest text of at least one character up to a character in the same line. -/
def shortest? (stop : Char) : List Char → Option (List Char)
  | [] => none
  | c :: s => if c = '\n' then none else (uptoInLine? stop s).map (c :: ·)

def indexed? (s : List Char) : Option (List Char × List Char) :=
  match word? s with
  | some (name, '[' :: rest) => (shortest? ']' rest).map fun key => (name, key)
  | _ => none

def argument? (name : String) (s : List Char) : Option (List Char) :=
  match after? name.toList s with
  | some ('(' :: rest) => shortest? ')' rest
  | _ => none

/-! ## Several arguments

A text may be cut in several ways. The first argument is the shortest one with which the rest can be
cut too, and blanks belong to the argument after them only if nothing else does. -/

def longest? (s : List Char) : Option (List Char) :=
  let line := s.takeWhile (· ≠ '\n')
  match line.reverse.dropWhile (· ≠ ')') with
  | [] => none
  | _ :: front => if front.isEmpty then none else some front.reverse

/-- What `next` makes of a text without some of the blanks at its front, the most of them if it can. -/
def skipping? {α : Type} (next : List Char → Option α) (s : List Char) : (blanks : Nat) → Option α
  | 0 => next s
  | n + 1 =>
    match next (s.drop (n + 1)) with
    | some a => some a
    | none => skipping? next s n

def afterBlanks? {α : Type} (next : List Char → Option α) (s : List Char) : Option α :=
  skipping? next s (s.takeWhile isBlank).length

/-- A text up to a comma, and what `next` makes of the rest. The shortest such text counts. -/
def uptoComma? {α : Type} (next : List Char → Option α) : List Char → Option (List Char × α)
  | [] => none
  | c :: s =>
    let later := if c = '\n' then none else (uptoComma? next s).map fun (t, a) => (c :: t, a)
    if c = ',' then
      match next s with
      | some a => some ([], a)
      | none => later
    else later

def firstOf? {α : Type} (next : List Char → Option α) : List Char → Option (List Char × α)
  | [] => none
  | c :: s => if c = '\n' then none else (uptoComma? next s).map fun (t, a) => (c :: t, a)

def twoArguments? : List Char → Option (List Char × List Char) := firstOf? (afterBlanks? longest?)

def threeArguments? : List Char → Option (List Char × List Char × List Char) :=
  firstOf? (afterBlanks? twoArguments?)

def afterName? (name : String) (s : List Char) : Option (List Char) :=
  after? (name.toList ++ ['(']) s

/-- A name that is set to the result of a command, and what follows the command's parenthesis. -/
def setTo? (name : String) (s : List Char) : Option (List Char × List Char) := do
  let (target, rest) ← word? s
  let rest ← after? ['='] (trimStart rest)
  let rest ← afterName? name (trimStart rest)
  return (target, rest)

/-! ## Lengths -/

theorem length_between?_lt {first last : Char} {s t : List Char}
    (h : between? first last s = some t) : t.length < s.length := by
  cases s with
  | nil => simp [between?] at h
  | cons c rest =>
    simp only [between?] at h
    split at h
    · simp only [Option.some.injEq] at h
      subst h
      simp only [List.length_dropLast, List.length_cons]
      omega
    · simp at h

theorem length_word? {s w rest : List Char} (h : word? s = some (w, rest)) :
    w.length + rest.length = s.length := by
  simp only [word?] at h
  split at h
  · simp at h
  · simp only [Option.some.injEq, Prod.mk.injEq] at h
    obtain ⟨rfl, rfl⟩ := h
    rw [← List.length_append, List.takeWhile_append_dropWhile]

theorem length_uptoInLine?_lt {stop : Char} {s t : List Char} (h : uptoInLine? stop s = some t) :
    t.length < s.length := by
  induction s generalizing t with
  | nil => simp [uptoInLine?] at h
  | cons c s ih =>
    simp only [uptoInLine?] at h
    split at h
    · simp only [Option.some.injEq] at h
      subst h
      simp
    · split at h
      · simp at h
      · obtain ⟨u, hu, rfl⟩ := Option.map_eq_some_iff.1 h
        simpa using ih hu

theorem length_shortest?_lt {stop : Char} {s t : List Char} (h : shortest? stop s = some t) :
    t.length < s.length := by
  cases s with
  | nil => simp [shortest?] at h
  | cons c s =>
    simp only [shortest?] at h
    split at h
    · simp at h
    · obtain ⟨u, hu, rfl⟩ := Option.map_eq_some_iff.1 h
      simpa using length_uptoInLine?_lt hu

theorem length_indexed?_lt {s name key : List Char} (h : indexed? s = some (name, key)) :
    key.length < s.length := by
  simp only [indexed?] at h
  split at h
  next w rest hw =>
    obtain ⟨k, hk, he⟩ := Option.map_eq_some_iff.1 h
    simp only [Prod.mk.injEq] at he
    obtain ⟨rfl, rfl⟩ := he
    have := length_word? hw
    have := length_shortest?_lt hk
    simp only [List.length_cons] at *
    omega
  next => simp at h

end Birokrasi.Extended
