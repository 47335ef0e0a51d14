import Birokrasi.Proofs.Cutting
import Birokrasi.Structured.Parser

/-!
# The lines that statements come from

A line of a program holds a statement, unless it is blank but for a comment or is a word that ends a
block (`holdsStatement`). Reading loses no such line and doubles none, however the blocks are nested,
left open or closed by the wrong word: whenever it succeeds, the lines that the statements start on,
headers before their bodies, are these lines in their order (`starts_of_ofLines`).

A reader has the lines of all statements read so far, those of open blocks included, in one list
(`Reader.starts`). A block that ends leaves this list as it is, and any other line adds itself or
nothing (`Reader.starts_feed`).
-/

namespace Birokrasi.Text

variable {l r s before rest : List Char} {c : Char}

/-- A text is trimmed to nothing if it is blank. -/
theorem trim_eq_nil_iff : trim s = [] ↔ s.all isBlank = true := by
  rw [List.all_eq_true]
  constructor
  · intro h c hc
    rw [← Bool.not_eq_false]
    intro hblank
    have hmem := mem_trim_of_not_blank hc hblank
    simp [h] at hmem
  · intro h
    cases ht : trim s with
    | nil => rfl
    | cons c t =>
      have hblank := h c (mem_of_mem_trim (by simp [ht]))
      have hfirst : isBlank c = false := not_blank_of_dropWhile ((trimStart_trim s).trans ht)
      simp [hfirst] at hblank

/-- What trimming removes is blank. -/
theorem exists_eq_append_trim (s : List Char) :
    ∃ l r, s = l ++ trim s ++ r ∧ l.all isBlank = true ∧ r.all isBlank = true := by
  refine ⟨s.takeWhile isBlank, ((trimStart s).reverse.takeWhile isBlank).reverse, ?_,
    List.all_takeWhile, by rw [List.all_reverse]; exact List.all_takeWhile⟩
  have hend : trim s ++ ((trimStart s).reverse.takeWhile isBlank).reverse = trimStart s := by
    rw [trim, trimEnd, ← List.reverse_append, List.takeWhile_append_dropWhile, List.reverse_reverse]
  rw [List.append_assoc, hend, trimStart, List.takeWhile_append_dropWhile]

theorem notMem_of_all_isBlank (h : s.all isBlank = true) (hc : isBlank c = false) : c ∉ s := by
  intro hmem
  rw [List.all_eq_true.1 h c hmem] at hc
  cases hc

/-- A cut is found behind a text that does not hold the first character of the separator. -/
theorem cut?_append_left {sep : List Char} (hl : c ∉ l) (h : cut? (c :: sep) s = some (before, rest)) :
    cut? (c :: sep) (l ++ s) = some (l ++ before, rest) := by
  induction l with
  | nil => exact h
  | cons x l ih =>
    have hx : c ≠ x := fun hx => hl (hx ▸ List.mem_cons_self)
    exact cut?_cons (by simp [after?, hx]) (ih fun hmem => hl (List.mem_cons_of_mem x hmem))

theorem after?_append_right {lead : List Char} (h : after? lead s = some rest) :
    after? lead (s ++ r) = some (rest ++ r) := by
  rw [eq_append_of_after? h, List.append_assoc, after?_append]

/-- A cut at a repeated character stays where it is when a text without this character follows. -/
theorem cut?_append_right {n : Nat} (hr : c ∉ r)
    (h : cut? (List.replicate (n + 1) c) s = some (before, rest)) :
    cut? (List.replicate (n + 1) c) (s ++ r) = some (before, rest ++ r) := by
  induction s generalizing before with
  | nil => cases h
  | cons x s ih =>
    rw [cut?] at h
    rw [List.cons_append, cut?, ← List.cons_append]
    split at h
    next tail htail =>
      cases h
      rw [after?_append_right htail]
    next hnone =>
      obtain ⟨⟨b, t⟩, hcut, heq⟩ := Option.map_eq_some_iff.1 h
      cases heq
      rw [after?_append_eq_none hr (fun y hy => List.eq_of_mem_replicate hy) hnone, ih hcut]
      rfl

end Birokrasi.Text

namespace Birokrasi.Structured

open Birokrasi.Text

/-! ## Lines with statements -/

/-- The part of a line in front of its first comment sign. -/
def beforeComment (line : String) : List Char :=
  match cut? ['/', '/'] line.toList with
  | some (before, _) => before
  | none => line.toList

/-- The words that end blocks. -/
def terminators : List String := ["akhir", "jikaGagal", "akhirCoba", "selesaiRapat", "akhirProsedur"]

/-- Whether a line holds a statement: it is not blank in front of its comment, and it is no word that
ends a block. -/
def holdsStatement (line : String) : Bool :=
  !(beforeComment line).all isBlank && !terminators.contains (trimString line)

/-- The numbers of the lines that hold a statement, if the first line has number `n`. -/
def statementLines (n : Nat) (lines : List String) : List Nat :=
  ((lines.zipIdx n).filter fun x => holdsStatement x.1).map Prod.snd

theorem statementLines_cons (n : Nat) (line : String) (rest : List String) :
    statementLines n (line :: rest) =
      (if holdsStatement line then [n] else []) ++ statementLines (n + 1) rest := by
  rw [statementLines, List.zipIdx_cons, List.filter_cons]
  split <;> rfl

theorem pairwise_statementLines (n : Nat) (lines : List String) :
    (statementLines n lines).Pairwise (· < ·) := by
  have hsub : (statementLines n lines).Sublist ((lines.zipIdx n).map Prod.snd) :=
    List.filter_sublist.map _
  rw [List.zipIdx_map_snd] at hsub
  exact List.Pairwise.sublist hsub List.pairwise_lt_range'

theorem terminator_mem_terminators (h : Header) : h.terminator ∈ terminators := by
  cases h <;> simp [Header.terminator, terminators]

section Lines

variable {line : String} {n : Nat} {kind : LineKind}

/-- Nothing is left of a line exactly if it is blank in front of its comment. -/
theorem uncommented_eq_nil_iff : uncommented line = [] ↔ (beforeComment line).all isBlank = true := by
  obtain ⟨l, r, hline, hl, hr⟩ := exists_eq_append_trim line.toList
  have hslash : isBlank '/' = false := rfl
  have hleft := notMem_of_all_isBlank hl hslash
  have hright := notMem_of_all_isBlank hr hslash
  cases hcut : cut? ['/', '/'] (trim line.toList) with
  | none =>
    have hwhole : cut? ['/', '/'] line.toList = none := by
      rw [hline]
      exact cut?_append_of_notMem_right (n := 1) hright (cut?_append_of_notMem_left hleft hcut)
    rw [uncommented, beforeComment]
    simp only [hcut, hwhole]
    exact trim_eq_nil_iff
  | some sides =>
    obtain ⟨before, rest⟩ := sides
    have hwhole : cut? ['/', '/'] line.toList = some (l ++ before, rest ++ r) := by
      rw [hline]
      exact cut?_append_right (n := 1) hright (cut?_append_left hleft hcut)
    rw [uncommented, beforeComment]
    simp only [hcut, hwhole, List.all_append, hl, Bool.true_and]
    exact trim_eq_nil_iff

/-- A word that ends a block is no statement. -/
theorem ofLine_terminator (h : trimString line ∈ terminators) :
    ∃ e, LineKind.ofLine n line = .error e := by
  have htrim : trim line.toList = (trimString line).toList := by rw [trimString, String.toList_ofList]
  have hword (word : String) (heq : trimString line = word)
      (hcut : cut? ['/', '/'] word.toList = none) : uncommented line = word.toList := by
    rw [uncommented, htrim, heq]
    simp only [hcut]
  simp only [terminators, List.mem_cons, List.not_mem_nil, or_false] at h
  unfold LineKind.ofLine
  rcases h with h | h | h | h | h <;> rw [hword _ h rfl] <;> exact ⟨_, rfl⟩

end Lines

/-! ## Lines of statements -/

mutual

/-- The lines that a statement and those in it start on, its own before those of its parts. -/
def Stmt.starts : Stmt → List Nat
  | .block line body => line :: startsAll body
  | .attempt line body recovery => line :: (startsAll body ++ startsAll recovery)
  | .meeting line _ body => line :: startsAll body
  | .procedure line _ body => line :: startsAll body
  | .call line _ => [line]
  | .assign line _ _ => [line]
  | .report line _ => [line]
  | .embezzle line _ => [line]
  | .stall line _ => [line]
  | .branch line _ body otherwise => line :: (startsAll body ++ startsAll otherwise)
  | .unknown line => [line]

/-- The lines that statements and those in them start on. -/
def startsAll : List Stmt → List Nat
  | [] => []
  | s :: rest => s.starts ++ startsAll rest

end

theorem startsAll_append (l r : List Stmt) : startsAll (l ++ r) = startsAll l ++ startsAll r := by
  induction l with
  | nil => rw [startsAll, List.nil_append, List.nil_append]
  | cons s l ih => rw [List.cons_append, startsAll, startsAll, ih, List.append_assoc]

theorem startsAll_reverse_cons (s : Stmt) (l : List Stmt) :
    startsAll (s :: l).reverse = startsAll l.reverse ++ s.starts := by
  rw [List.reverse_cons, startsAll_append, startsAll, startsAll, List.append_nil]

/-- The lines of a block that has been opened, up to the body that is being read. -/
def Header.starts : Header → List Nat
  | .block line => [line]
  | .attempt line => [line]
  | .recovery line body => line :: startsAll body
  | .meeting line _ => [line]
  | .procedure line _ => [line]
  | .branch line _ => [line]

theorem starts_close (header : Header) (body : List Stmt) :
    (header.close body).starts = header.starts ++ startsAll body := by
  cases header <;> simp [Header.close, Header.starts, Stmt.starts, startsAll]

/-- The lines of what a line says. -/
def LineKind.starts : LineKind → List Nat
  | .blank => []
  | .opening header => header.starts
  | .simple stmt => stmt.starts

/-- A line that says something starts it, if it holds a statement at all. -/
theorem starts_ofLine {n : Nat} {line : String} {kind : LineKind}
    (h : LineKind.ofLine n line = .ok kind) :
    kind.starts = if holdsStatement line then [n] else [] := by
  have hfree : terminators.contains (trimString line) = false := by
    rw [Bool.eq_false_iff, ne_eq, List.contains_iff_mem]
    intro hmem
    obtain ⟨e, he⟩ := ofLine_terminator (n := n) hmem
    rw [he] at h
    cases h
  have hholds : holdsStatement line = !(uncommented line).isEmpty := by
    rw [holdsStatement, hfree, Bool.not_false, Bool.and_true, Bool.eq_iff_iff, Bool.not_eq_true',
      Bool.not_eq_true', Bool.eq_false_iff, Bool.eq_false_iff, ne_eq, ne_eq, List.isEmpty_iff,
      uncommented_eq_nil_iff]
  rw [hholds]
  unfold LineKind.ofLine at h
  dsimp only at h
  cases hempty : (uncommented line).isEmpty with
  | true =>
    rw [hempty] at h
    cases h
    rfl
  | false =>
    rw [hempty, if_neg Bool.false_ne_true] at h
    rw [Bool.not_false, if_pos rfl]
    -- Whatever shape the line has, the statement starts on it.
    repeat'
      split at h
      · cases h
        rfl
    cases h

namespace Reader

variable {r r' : Reader} {n : Nat} {line : String}

/-- The lines of the open blocks and of what stands in front of them, from the outside on. -/
def pendingStarts : List (Header × List Stmt) → List Nat
  | [] => []
  | (header, outside) :: rest => pendingStarts rest ++ startsAll outside.reverse ++ header.starts

/-- The lines of all statements that have been read. -/
def starts (r : Reader) : List Nat := pendingStarts r.pending ++ startsAll r.current.reverse

theorem starts_add (stmt : Stmt) : (r.add stmt).starts = r.starts ++ stmt.starts := by
  rw [starts, add, startsAll_reverse_cons, ← List.append_assoc]
  rfl

theorem starts_enter (header : Header) : (r.enter header).starts = r.starts ++ header.starts := by
  simp [starts, enter, pendingStarts, startsAll]

/-- A block that ends keeps its lines. -/
theorem starts_leave : r.leave.starts = r.starts := by
  unfold leave
  split
  next => rfl
  next line outside rest heq => simp [starts, heq, pendingStarts, startsAll, Header.starts]
  next header outside rest _ heq =>
    simp [starts, heq, pendingStarts, startsAll_append, startsAll, starts_close]

theorem startsAll_closeAll (current : List Stmt) (pending : List (Header × List Stmt)) :
    startsAll (closeAll current pending) = pendingStarts pending ++ startsAll current.reverse := by
  induction pending generalizing current with
  | nil => rw [closeAll, pendingStarts, List.nil_append]
  | cons open' rest ih =>
    rw [closeAll, ih, startsAll_reverse_cons, starts_close, pendingStarts]
    simp only [List.append_assoc]

/-- A line adds itself if it holds a statement, and nothing otherwise. -/
theorem starts_feed (h : r.feed n line = .ok r') :
    r'.starts = r.starts ++ if holdsStatement line then [n] else [] := by
  rw [feed] at h
  by_cases hends : r.isTerminator line = true
  · have hword : terminators.contains (trimString line) = true := by
      unfold isTerminator at hends
      split at hends
      · cases hends
      · rw [beq_iff_eq.1 hends, List.contains_iff_mem]
        exact terminator_mem_terminators _
    rw [if_pos hends] at h
    cases h
    rw [starts_leave, holdsStatement, hword, Bool.not_true, Bool.and_false, if_neg Bool.false_ne_true,
      List.append_nil]
  · rw [if_neg hends] at h
    cases hkind : LineKind.ofLine n line with
    | error e =>
      rw [hkind] at h
      cases h
    | ok kind =>
      rw [← starts_ofLine hkind]
      rw [hkind] at h
      cases kind with
      | blank =>
        cases h
        exact (List.append_nil _).symm
      | opening header =>
        cases h
        exact starts_enter header
      | simple stmt =>
        cases h
        exact starts_add stmt

theorem starts_feedAll {lines : List String} (h : r.feedAll n lines = .ok r') :
    r'.starts = r.starts ++ statementLines n lines := by
  induction lines generalizing r n with
  | nil =>
    cases h
    exact (List.append_nil _).symm
  | cons line rest ih =>
    rw [feedAll] at h
    cases hfeed : r.feed n line with
    | error e =>
      rw [hfeed] at h
      cases h
    | ok r₁ =>
      rw [hfeed] at h
      rw [ih h, starts_feed hfeed, statementLines_cons, List.append_assoc]

end Reader

/-- Whenever lines can be read, the statements start on exactly those lines that hold one, headers
before their bodies: none is lost, none is doubled, and their numbers increase. -/
theorem starts_of_ofLines {lines : List String} {p : Program} (h : Program.ofLines lines = .ok p) :
    startsAll p.body = statementLines 1 lines ∧ (startsAll p.body).Pairwise (· < ·) := by
  have hstarts : startsAll p.body = statementLines 1 lines := by
    rw [Program.ofLines] at h
    cases hfeed : Reader.feedAll {} 1 lines with
    | error e =>
      rw [hfeed] at h
      cases h
    | ok r =>
      rw [hfeed] at h
      cases h
      rw [Reader.finish, Reader.startsAll_closeAll]
      have hread := Reader.starts_feedAll hfeed
      rwa [Reader.starts, show Reader.starts {} = [] from rfl, List.nil_append] at hread
  exact ⟨hstarts, hstarts ▸ pairwise_statementLines 1 lines⟩

/-- Blocks that are left open, with blank lines, comments, a comment behind a header and a word that
ends another kind of block inside a text. -/
def leftOpen : List String :=
  ["coba // lagi", "", "  lapor \"akhir\" ", "// lapor 1", "jikaGagal", "Rapat(2)", "\tmulai", "akhir", " x() ",
    "selesaiRapat", "jika benar", "lapor 2//akhir"]

theorem starts_of_ofLines_leftOpen :
    ∃ p, Program.ofLines leftOpen = .ok p ∧ startsAll p.body = [1, 3, 6, 7, 9, 11, 12] := by
  obtain ⟨p, hp⟩ : ∃ p, Program.ofLines leftOpen = .ok p := ⟨_, rfl⟩
  have hlines : statementLines 1 leftOpen = [1, 3, 6, 7, 9, 11, 12] := by decide +kernel
  exact ⟨p, hp, (starts_of_ofLines hp).1.trans hlines⟩

end Birokrasi.Structured
