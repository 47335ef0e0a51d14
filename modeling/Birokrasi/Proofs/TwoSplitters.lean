import Birokrasi.Proofs.ArgumentLists
import Birokrasi.Structured.Expression

/-!
# Argument lists are split alike

The structured and the extended language each have a scanner of their own for argument lists. One walks
along the list with a `Scan` in its hands and gives a piece away at each comma; the other cuts the list
first, and drops blanks afterwards. A scan that has begun stands for the cutting of the rest, with the
piece it holds in front (`piecesFrom_eq`), whatever brackets and quotes have been left open.

The main statement is `arguments_split_alike`.
-/

namespace Birokrasi.Structured

open Birokrasi.Text
open Birokrasi.Extended (quoteAfter bracketStep cutAtCommas withFront withoutBlankLast
  splitArguments Bracketed bracketed_blanks cutAtCommas_plain cutAtCommas_hidden cutAtCommas_comma
  cutAtCommas_append)

variable {scan : Scan} {c : Char} {text : List Char}

/-! ## One character -/

theorem extend_of_hidden (h : Extended.isPlain scan.quote c = false) :
    scan.extend c = ⟨quoteAfter scan.quote c, scan.depth, c :: scan.piece⟩ := by
  obtain ⟨quote, depth, piece⟩ := scan
  cases quote with
  | some q => rfl
  | none =>
    have hquote : isQuote c = true := by
      rw [Extended.isPlain, Option.isNone_none, Bool.true_and, Bool.not_eq_false'] at h
      exact h
    have hafter : quoteAfter none c = some c := if_pos hquote
    simp only [Scan.extend, hquote, if_true, hafter]

theorem extend_of_plain (h : Extended.isPlain scan.quote c = true) :
    scan.extend c = ⟨scan.quote, scan.depth + bracketStep c, c :: scan.piece⟩ := by
  obtain ⟨quote, depth, piece⟩ := scan
  cases quote with
  | some q => cases h
  | none =>
    have hquote : isQuote c = false := by simpa [Extended.isPlain, isQuote] using h
    have hstep : bracketStep c = if isOpening c then 1 else if isClosing c then -1 else 0 := rfl
    simp only [Scan.extend, hquote, hstep, Bool.false_eq_true, if_false]
    split
    · rfl
    · split
      · rfl
      · rw [Int.add_zero]

/-- A comma counts for a scan if it is plain and no bracket is open. -/
theorem ends_iff : (c = ',' && scan.quote.isNone && scan.depth = 0) = true ↔
    Extended.isPlain scan.quote c = true ∧ c = ',' ∧ scan.depth = 0 := by
  constructor
  · intro h
    simp only [Bool.and_eq_true, decide_eq_true_eq] at h
    obtain ⟨⟨rfl, hnone⟩, hdepth⟩ := h
    exact ⟨by simp [Extended.isPlain, hnone], rfl, hdepth⟩
  · rintro ⟨hplain, rfl, hdepth⟩
    have hnone : scan.quote.isNone = true := by simpa [Extended.isPlain] using hplain
    simp [hnone, hdepth]

/-- A character that ends no piece is put in front of what the longer scan is followed by. -/
theorem cutAtCommas_extend (h : ¬ (Extended.isPlain scan.quote c = true ∧ c = ',' ∧ scan.depth = 0)) :
    cutAtCommas scan.quote scan.depth (c :: text) =
      withFront [c] (cutAtCommas (scan.extend c).quote (scan.extend c).depth text) := by
  cases hplain : Extended.isPlain scan.quote c with
  | true =>
    rw [cutAtCommas_plain hplain fun hc hdepth => h ⟨hplain, hc, hdepth⟩, extend_of_plain hplain]
  | false => rw [cutAtCommas_hidden hplain, extend_of_hidden hplain]

theorem piece_extend (scan : Scan) (c : Char) : (scan.extend c).piece = c :: scan.piece := by
  cases hplain : Extended.isPlain scan.quote c with
  | true => rw [extend_of_plain hplain]
  | false => rw [extend_of_hidden hplain]

/-! ## The rest of a list -/

/-- What a scan gives is what cutting the rest gives, with the piece that the scan holds in front. -/
theorem piecesFrom_eq (scan : Scan) (text : List Char) :
    piecesFrom scan text =
      withoutBlankLast ((scan.piece.reverse ++ (cutAtCommas scan.quote scan.depth text).1) ::
        (cutAtCommas scan.quote scan.depth text).2) := by
  induction text generalizing scan with
  | nil =>
    rw [piecesFrom, cutAtCommas, List.append_nil]
    rfl
  | cons c rest ih =>
    by_cases hends : Extended.isPlain scan.quote c = true ∧ c = ',' ∧ scan.depth = 0
    · rw [piecesFrom, if_pos (ends_iff.2 hends), ih]
      obtain ⟨hplain, rfl, hdepth⟩ := hends
      have hnone : scan.quote = none := by simpa [Extended.isPlain] using hplain
      rw [hnone, hdepth, cutAtCommas_comma, List.append_nil]
      rfl
    · rw [piecesFrom, if_neg fun h => hends (ends_iff.1 h), ih, cutAtCommas_extend hends, piece_extend]
      simp [withFront]

theorem all_isBlank_of_trim (h : trim text = []) : text.all isBlank = true := by
  refine List.all_eq_true.2 fun d hd => ?_
  cases hblank : isBlank d with
  | true => rfl
  | false =>
    have hmem := mem_trim_of_not_blank hd hblank
    rw [h] at hmem
    cases hmem

/-- A blank list has no pieces, although one language does not ask whether it is blank. -/
theorem splitArguments_of_blank (h : trim text = []) : splitArguments text = [] := by
  have hcut : cutAtCommas none 0 text = (text, []) := by
    have hbracketed : Bracketed false text := bracketed_blanks (all_isBlank_of_trim h)
    have happend := cutAtCommas_append hbracketed (Int.le_refl 0) nofun []
    simpa [withFront, cutAtCommas] using happend
  rw [splitArguments, hcut]
  show withoutBlankLast [text] = []
  rw [withoutBlankLast, h]
  rfl

theorem pieces_eq_splitArguments (text : List Char) : pieces text = splitArguments text := by
  rw [pieces]
  split
  next hblank => rw [splitArguments_of_blank (List.isEmpty_iff.1 hblank)]
  next =>
    rw [piecesFrom_eq]
    rfl

/-- An argument list is split into the same pieces in both languages, whatever is left open in it, and
these are what the structured language evaluates, one after the other. -/
theorem arguments_split_alike (text : List Char) :
    pieces text = splitArguments text ∧
      ∀ state, evalArguments state text = (splitArguments text).mapM (eval state) := by
  refine ⟨pieces_eq_splitArguments text, fun state => ?_⟩
  rw [evalArguments, pieces_eq_splitArguments]

end Birokrasi.Structured
