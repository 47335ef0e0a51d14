import Birokrasi.Extended.Pattern

/-!
# The extended language: blocks

Where blocks end (`_find_block_end`). A block ends at the first of its closing words that is not inside a
block of its own. The ends depend on the lines alone, so that the line after a statement is known before
the statement is executed.
-/

namespace Birokrasi.Extended

open Birokrasi.Text

def lineAt (lines : Array String) (i : Nat) : List Char :=
  trim ((lines[i]?).getD "").toList

def closingWord : String := "akhir"

/-- The words that start a block with an end of its own. -/
def blockWords : List String := ["fungsi ", "jika ", "selama ", "untuk "]

def startsWithAny (words : List String) (line : List Char) : Bool :=
  words.any fun w => startsWith line w.toList

/-- How many lines come before the end of a block, at a depth of blocks inside it; all of them if it
has no end. -/
def linesBeforeEnd (keywords : List String) (depth : Int) : List String → Nat
  | [] => 0
  | raw :: rest =>
    let line := trim raw.toList
    if depth = 0 && keywords.contains (String.ofList line) then 0
    else if line = closingWord.toList then 1 + linesBeforeEnd keywords (depth - 1) rest
    else if startsWithAny blockWords line then 1 + linesBeforeEnd keywords (depth + 1) rest
    else 1 + linesBeforeEnd keywords depth rest

def blockEnd (lines : Array String) (start : Nat) (keywords : List String) : Nat :=
  if lines.size ≤ start then lines.size
  else start + linesBeforeEnd keywords 0 (lines.toList.drop start)

/-- The index of the line that ends a block which starts at a line that may be counted from the end;
`none` if there is no such line. -/
def blockEndFrom? (lines : Array String) (start : Int) (keywords : List String) : Option Int :=
  if 0 ≤ start then some (blockEnd lines start.toNat keywords)
  else (itemsFrom? lines.toList start).map fun rest => start + linesBeforeEnd keywords 0 rest

theorem le_blockEnd {lines : Array String} {start : Nat} (keywords : List String)
    (h : start ≤ lines.size) : start ≤ blockEnd lines start keywords := by
  simp only [blockEnd]
  split <;> omega

/-! ## Functions -/

def functionBlockWords : List String := ["fungsi ", "jika ", "selama "]

/-- How many lines the body of a function has, at a depth of blocks inside it; `none` if it has no
end. -/
def bodyLength? (depth : Nat) : List String → Option Nat
  | [] => none
  | raw :: rest =>
    let line := trim raw.toList
    if line = closingWord.toList then
      match depth with
      | 0 => some 0
      | depth + 1 => (bodyLength? depth rest).map (· + 1)
    else if startsWithAny functionBlockWords line then (bodyLength? (depth + 1) rest).map (· + 1)
    else (bodyLength? depth rest).map (· + 1)

/-- The number of lines of the body of the function whose header is at a line. A function without end
has none. -/
def functionLength (lines : Array String) (header : Nat) : Nat :=
  (bodyLength? 0 (lines.toList.drop (header + 1))).getD 0

def header? (line : List Char) : Option (String × List String) := do
  let rest ← after? "fungsi".toList line
  let (name, rest) ← word? (trimStart rest)
  let rest ← after? ['('] (trimStart rest)
  let (params, _) ← cut? [')'] rest
  let params := trim params
  return (String.ofList name,
    if params.isEmpty then [] else (splitOn ',' params).map fun p => String.ofList (trim p))

/-! ## Conditionals -/

def branchWords : List String := ["ataujika", "atau", closingWord]

inductive Branch where
  | condition (expr : List Char)
  | otherwise
  | close
  | other

def Branch.ofLine (line : List Char) : Branch :=
  match after? "jika ".toList line, after? "ataujika ".toList line with
  | some expr, _ => .condition (trim expr)
  | none, some expr => .condition (trim expr)
  | none, none =>
    if line = "atau".toList then .otherwise
    else if line = closingWord.toList then .close
    else .other

/-- The index after a conditional of which the branch at a line is looked at. -/
def conditionalEnd (lines : Array String) (i : Nat) : Nat :=
  if _h : i < lines.size then
    match Branch.ofLine (lineAt lines i) with
    | .condition _ => conditionalEnd lines (blockEnd lines (i + 1) branchWords)
    | .otherwise => conditionalEnd lines (blockEnd lines (i + 1) [closingWord])
    | .close => i + 1
    | .other => conditionalEnd lines (i + 1)
  else i
termination_by lines.size - i
decreasing_by
  · have := le_blockEnd branchWords (show i + 1 ≤ lines.size by omega)
    omega
  · have := le_blockEnd [closingWord] (show i + 1 ≤ lines.size by omega)
    omega
  · omega

theorem le_conditionalEnd (lines : Array String) (i : Nat) : i ≤ conditionalEnd lines i := by
  fun_induction conditionalEnd lines i with
  | case1 i h _ _ ih =>
    have := le_blockEnd branchWords (show i + 1 ≤ lines.size by omega)
    omega
  | case2 i h _ ih =>
    have := le_blockEnd [closingWord] (show i + 1 ≤ lines.size by omega)
    omega
  | case3 => omega
  | case4 i h _ ih => omega
  | case5 => omega

theorem lt_conditionalEnd {lines : Array String} {i : Nat} (h : i < lines.size) :
    i < conditionalEnd lines i := by
  rw [conditionalEnd, dif_pos h]
  have hb := le_blockEnd branchWords (show i + 1 ≤ lines.size by omega)
  have hc := le_blockEnd [closingWord] (show i + 1 ≤ lines.size by omega)
  split
  · exact Nat.lt_of_lt_of_le hb (le_conditionalEnd _ _)
  · exact Nat.lt_of_lt_of_le hc (le_conditionalEnd _ _)
  · omega
  · exact Nat.lt_of_lt_of_le (Nat.lt_succ_self i) (le_conditionalEnd _ _)

/-! ## Loops -/

inductive Span where
  | items (expr : List Char)
  | range (first last : List Char)

def afterRangeWord? (s : List Char) : Option (List Char) := do
  guard ((s.head?.map isBlank).getD false)
  let rest ← after? "sampai".toList (trimStart s)
  guard ((rest.head?.map isBlank).getD false)
  let last := trimStart rest
  guard (!last.isEmpty)
  return last

def cutRange? : List Char → Option (List Char × List Char)
  | [] => none
  | c :: s =>
    match afterRangeWord? s with
    | some last => some ([c], last)
    | none => (cutRange? s).map fun (first, last) => (c :: first, last)

def range? (line : List Char) : Option (String × List Char × List Char) := do
  let rest ← after? "untuk".toList line
  let (name, rest) ← word? (trimStart rest)
  guard ((rest.head?.map isBlank).getD false)
  let rest ← after? "dari".toList (trimStart rest)
  let blanks := (rest.takeWhile isBlank).length
  guard (0 < blanks)
  let (first, last) ← skipping? cutRange? (rest.drop 1) (blanks - 1)
  return (String.ofList name, first, last)

/-- What the header of a counted loop says: its variable and what it runs over. -/
inductive LoopHeader where
  | over (name : String) (span : Span)
  | malformed
  | unknown

def LoopHeader.ofLine (line : List Char) : LoopHeader :=
  match cut? " dalam ".toList line with
  | some (front, expr) =>
    .over (String.ofList (trim (replace "untuk".toList [] front))) (.items (trim expr))
  | none =>
    if occursIn " dari ".toList line && occursIn " sampai ".toList line then
      match range? line with
      | some (name, first, last) => .over name (.range first last)
      | none => .malformed
    else .unknown

end Birokrasi.Extended
