import Birokrasi.Text.Split

/-!
# The structured language: argument lists

The texts between the commas of an argument list (`_parse_args`). A comma inside quotes or brackets does
not count.
-/

namespace Birokrasi.Structured

open Birokrasi.Text

/-- Where a scan of an argument list stands: the quote that is open, the depth of brackets, and the
characters of the current piece, latest first. -/
structure Scan where
  quote : Option Char := none
  depth : Int := 0
  piece : List Char := []

def Scan.text (s : Scan) : List Char := trim s.piece.reverse

def isQuote (c : Char) : Bool := c = '"' || c = '\''

def isOpening (c : Char) : Bool := c = '(' || c = '[' || c = '\x7b'

def isClosing (c : Char) : Bool := c = ')' || c = ']' || c = '\x7d'

def Scan.extend (s : Scan) (c : Char) : Scan :=
  match s.quote with
  | some q => { s with quote := if c = q then none else some q, piece := c :: s.piece }
  | none =>
    if isQuote c then { s with quote := some c, piece := c :: s.piece }
    else if isOpening c then { s with depth := s.depth + 1, piece := c :: s.piece }
    else if isClosing c then { s with depth := s.depth - 1, piece := c :: s.piece }
    else { s with piece := c :: s.piece }

/-- The pieces from a scan on. The last one counts only if it is not blank. -/
def piecesFrom (s : Scan) : List Char → List (List Char)
  | [] => if s.text.isEmpty then [] else [s.text]
  | c :: rest =>
    if c = ',' && s.quote.isNone && s.depth = 0 then s.text :: piecesFrom {} rest
    else piecesFrom (s.extend c) rest

def pieces (text : List Char) : List (List Char) :=
  if (trim text).isEmpty then [] else piecesFrom {} text

theorem length_piecesFrom_le {s : Scan} {text p : List Char} (h : p ∈ piecesFrom s text) :
    p.length ≤ s.piece.length + text.length := by
  have ht : ∀ s : Scan, s.text.length ≤ s.piece.length := fun s => by
    simpa [Scan.text] using length_trim_le s.piece.reverse
  have he : ∀ (s : Scan) (c : Char), (s.extend c).piece.length = s.piece.length + 1 := fun s c => by
    simp only [Scan.extend]
    repeat' split
    all_goals simp
  induction text generalizing s with
  | nil =>
    simp only [piecesFrom] at h
    split at h
    · simp at h
    · have := ht s
      simp_all
  | cons c rest ih =>
    simp only [piecesFrom] at h
    split at h
    · rcases List.mem_cons.1 h with rfl | h
      · have := ht s
        simp only [List.length_cons]
        omega
      · have := ih h
        simp only [List.length_cons, List.length_nil] at this ⊢
        omega
    · have := ih h
      rw [he] at this
      simp only [List.length_cons]
      omega

theorem length_pieces_le {text p : List Char} (h : p ∈ pieces text) : p.length ≤ text.length := by
  simp only [pieces] at h
  split at h
  · simp at h
  · simpa using length_piecesFrom_le h

end Birokrasi.Structured
