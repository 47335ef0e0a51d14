import Birokrasi.Proofs.NestedLines

/-!
# The lines that a function owns

A function ends at a closing line, which is found by counting: blocks that are started, less blocks that
are closed. Functions do this by themselves, and do not count the loops that start with `untuk `. So a
function with well nested lines owns all of them if no such loop is among them. Otherwise it ends too
early, at the first closing line at which no more blocks are open than such loops have been started; the
other lines of it, down to its own closing line, are executed where the function is defined
(`function_owns_lines`). Every other block ends where it should (`blockEnd`).
-/

namespace Birokrasi.Extended

open Birokrasi.Text
open Birokrasi.Extended.Tree (inTurn)

/-! ## Counting -/

/-- What a line adds to the number of open blocks, of those that start with one of the words. -/
def weight (words : List String) (raw : String) : Int :=
  if Says closingWord raw then -1 else if startsWithAny words (trim raw.toList) then 1 else 0

/-- How many blocks are open after lines, of those that start with one of the words. -/
def openAfter (words : List String) : List String → Int
  | [] => 0
  | raw :: rest => weight words raw + openAfter words rest

/-- How many loops that start with `untuk ` start in lines. -/
def countedLoops (ls : List String) : Nat :=
  ls.countP fun raw => startsWith (trim raw.toList) "untuk ".toList

section Counting

variable {words ls ls' rest : List String} {raw : String} {depth n : Nat} {inside : Bool}

@[simp] theorem openAfter_append :
    openAfter words (ls ++ ls') = openAfter words ls + openAfter words ls' := by
  induction ls with
  | nil => simp [openAfter]
  | cons raw ls ih => simp only [List.cons_append, openAfter, ih, Int.add_assoc]

theorem weight_of_closes (h : Says closingWord raw) : weight words raw = -1 := if_pos h

theorem weight_of_starts (h : Starts raw) : weight blockWords raw = 1 := by
  have hclose : ¬ Says closingWord raw := h.ne_branchWord (by decide)
  rw [Starts] at h
  rw [weight, if_neg hclose, if_pos h]

theorem weight_of_not_starts (hclose : ¬ Says closingWord raw)
    (h : startsWithAny blockWords (trim raw.toList) = false) : weight blockWords raw = 0 := by
  rw [weight, if_neg hclose, h]
  rfl

theorem Plain.not_closes (h : Plain (trim raw.toList)) : ¬ Says closingWord raw :=
  h.1 closingWord (by decide)

theorem Parts.not_closes (h : Parts raw) : ¬ Says closingWord raw := by
  intro hclose
  rcases h with hatau | ⟨condition, text, hline, -⟩
  · exact absurd (hatau.symm.trans hclose) (by decide)
  · have hlen := congrArg List.length (hline.symm.trans hclose)
    rw [List.length_append] at hlen
    exact absurd (Nat.le_add_right 9 text.length) (by rw [show 9 + text.length = 5 from hlen]; decide)

/-- Blocks of all kinds are those that a function counts, and loops. -/
theorem weight_blockWords (raw : String) :
    weight blockWords raw = weight functionBlockWords raw +
      if startsWith (trim raw.toList) "untuk ".toList then 1 else 0 := by
  by_cases hloop : startsWith (trim raw.toList) "untuk ".toList
  · obtain ⟨text, htext⟩ := Option.isSome_iff_exists.1 hloop
    have hline := eq_append_of_after? htext
    have hstarts : Starts raw := List.any_eq_true.2 ⟨"untuk ", by decide, hloop⟩
    have hclose : ¬ Says closingWord raw := hstarts.ne_branchWord (by decide)
    have hnot : startsWithAny functionBlockWords (trim raw.toList) = false := by
      rw [hline]
      rfl
    rw [weight_of_starts hstarts, weight, if_neg hclose, hnot, if_pos hloop]
    rfl
  · have hsame : startsWithAny blockWords (trim raw.toList) =
        startsWithAny functionBlockWords (trim raw.toList) := by
      have hall : blockWords = functionBlockWords ++ ["untuk "] := rfl
      rw [startsWithAny, hall, List.any_append, List.any_cons, Bool.eq_false_iff.2 hloop]
      exact Bool.or_false _
    rw [weight, weight, hsame, if_neg hloop, Int.add_zero]

theorem openAfter_blockWords (ls : List String) :
    openAfter blockWords ls = openAfter functionBlockWords ls + countedLoops ls := by
  induction ls with
  | nil => rfl
  | cons raw ls ih =>
    have hcount : countedLoops (raw :: ls) = countedLoops ls +
        if startsWith (trim raw.toList) "untuk ".toList then 1 else 0 :=
      List.countP_cons
    rw [openAfter, openAfter, ih, weight_blockWords, hcount]
    split <;> omega

/-! ## Nested lines -/

/-- After nested lines no more blocks are open than before. -/
theorem Nested.openAfter_eq (h : Nested inside ls) : openAfter blockWords ls = 0 := by
  induction h with
  | nil => rfl
  | line hplain _ ih =>
    rw [openAfter, ih, weight_of_not_starts hplain.not_closes hplain.not_starts]
    rfl
  | parts hparts _ ih =>
    rw [openAfter, ih, weight_of_not_starts hparts.not_closes hparts.not_starts]
    rfl
  | block hfirst _ hlast _ ihb ih =>
    rw [openAfter, openAfter_append, openAfter, ihb, ih, weight_of_starts hfirst,
      weight_of_closes hlast]
    rfl

/-- A closing line in nested lines closes a block that is open. -/
theorem Nested.openAfter_pos (h : Nested inside ls) {front : List String} {close : String}
    (hsplit : ls = front ++ close :: rest) (hclose : Says closingWord close) :
    0 < openAfter blockWords front := by
  induction h generalizing front rest with
  | nil => simp at hsplit
  | line hplain _ ih =>
    rcases List.cons_eq_append_iff.1 hsplit with ⟨-, heq⟩ | ⟨front, rfl, htail⟩
    · cases heq
      exact absurd hclose hplain.not_closes
    · rw [openAfter, weight_of_not_starts hplain.not_closes hplain.not_starts, Int.zero_add]
      exact ih htail
  | parts hparts _ ih =>
    rcases List.cons_eq_append_iff.1 hsplit with ⟨-, heq⟩ | ⟨front, rfl, htail⟩
    · cases heq
      exact absurd hclose hparts.not_closes
    · rw [openAfter, weight_of_not_starts hparts.not_closes hparts.not_starts, Int.zero_add]
      exact ih htail
  | @block inside first last bs ls hfirst hb hlast _ ihb ih =>
    rcases List.cons_eq_append_iff.1 hsplit with ⟨-, heq⟩ | ⟨front, rfl, htail⟩
    · cases heq
      exact absurd hclose (hfirst.ne_branchWord (by decide))
    · rw [openAfter, weight_of_starts hfirst]
      -- the line is in the block, its last one or after it
      rcases List.append_eq_append_iff.1 htail with ⟨mid, rfl, hmid⟩ | ⟨mid, rfl, hmid⟩
      · rcases List.cons_eq_append_iff.1 hmid with ⟨rfl, -⟩ | ⟨mid, rfl, hafter⟩
        · rw [List.append_nil, hb.openAfter_eq]
          decide
        · have hpos := ih hafter
          rw [openAfter_append, hb.openAfter_eq, openAfter, weight_of_closes hlast]
          omega
      · rcases List.cons_eq_append_iff.1 hmid with ⟨rfl, -⟩ | ⟨mid, rfl, -⟩
        · have hzero := hb.openAfter_eq
          rw [List.append_nil] at hzero
          rw [hzero]
          decide
        · have hpos := ihb rfl
          omega

/-! ## Where a function ends -/

/-- A function goes on to the next line, at the depth that the line leaves, unless the line closes it. -/
theorem exists_bodyLength?_cons (h : ¬ (Says closingWord raw ∧ depth = 0)) (ls : List String) :
    ∃ depth' : Nat, (depth' : Int) = depth + weight functionBlockWords raw ∧
      bodyLength? depth (raw :: ls) = (bodyLength? depth' ls).map (· + 1) := by
  by_cases hclose : Says closingWord raw
  · obtain ⟨depth', rfl⟩ := Nat.exists_eq_succ_of_ne_zero fun hzero => h ⟨hclose, hzero⟩
    refine ⟨depth', by rw [weight_of_closes hclose]; omega, ?_⟩
    rw [Says] at hclose
    simp only [bodyLength?, hclose, if_true]
  · by_cases hstart : startsWithAny functionBlockWords (trim raw.toList)
    · refine ⟨depth + 1, by rw [weight, if_neg hclose, if_pos hstart]; rfl, ?_⟩
      rw [Says] at hclose
      simp only [bodyLength?, hclose, if_false, hstart, if_true]
    · refine ⟨depth, by rw [weight, if_neg hclose, if_neg hstart, Int.add_zero], ?_⟩
      rw [Says] at hclose
      simp only [bodyLength?, hclose, if_false, hstart, Bool.false_eq_true]

theorem bodyLength?_of_closes (h : Says closingWord raw) (ls : List String) :
    bodyLength? 0 (raw :: ls) = some 0 := by
  rw [Says] at h
  simp only [bodyLength?, h, if_true]

/-- Lines that close more blocks than a function counts have its end among them. -/
theorem exists_bodyLength?_lt (h : depth + openAfter functionBlockWords ls < 0) (rest : List String) :
    ∃ n < ls.length, bodyLength? depth (ls ++ rest) = some n := by
  induction ls generalizing depth with
  | nil =>
    rw [openAfter] at h
    omega
  | cons raw ls ih =>
    by_cases hend : Says closingWord raw ∧ depth = 0
    · obtain ⟨hclose, rfl⟩ := hend
      exact ⟨0, Nat.zero_lt_succ _, bodyLength?_of_closes hclose _⟩
    · obtain ⟨depth', hdepth, heq⟩ := exists_bodyLength?_cons hend (ls ++ rest)
      rw [openAfter] at h
      have hneg : depth' + openAfter functionBlockWords ls < 0 := by omega
      obtain ⟨n, hn, hrest⟩ := ih hneg
      exact ⟨n + 1, Nat.succ_lt_succ hn, by rw [List.cons_append, heq, hrest]; rfl⟩

/-- The end that is found is the first closing line at which all blocks are closed that have been
counted. -/
theorem exists_of_bodyLength? (h : bodyLength? depth ls = some n) :
    ∃ front close rest, ls = front ++ close :: rest ∧ front.length = n ∧ Says closingWord close ∧
      depth + openAfter functionBlockWords front = 0 ∧
      ∀ a c b, front = a ++ c :: b → Says closingWord c →
        0 < depth + openAfter functionBlockWords a := by
  induction ls generalizing depth n with
  | nil => cases h
  | cons raw ls ih =>
    by_cases hend : Says closingWord raw ∧ depth = 0
    · obtain ⟨hclose, rfl⟩ := hend
      cases (bodyLength?_of_closes hclose ls).symm.trans h
      exact ⟨[], raw, ls, rfl, rfl, hclose, rfl, fun a c b hsplit => by simp at hsplit⟩
    · obtain ⟨depth', hdepth, heq⟩ := exists_bodyLength?_cons hend ls
      obtain ⟨m, hm, rfl⟩ := Option.map_eq_some_iff.1 (heq.symm.trans h)
      obtain ⟨front, close, rest, rfl, rfl, hclose, hzero, hbefore⟩ := ih hm
      refine ⟨raw :: front, close, rest, rfl, rfl, hclose, by rw [openAfter]; omega, ?_⟩
      intro a c b hsplit hc
      rcases List.cons_eq_append_iff.1 hsplit with ⟨rfl, heq⟩ | ⟨a, rfl, htail⟩
      · cases heq
        have hpos : depth ≠ 0 := fun hzero => hend ⟨hc, hzero⟩
        rw [openAfter]
        omega
      · have hpos := hbefore a c b htail hc
        rw [openAfter]
        omega

end Counting

/-! ## Functions in nested lines -/

/-- The header of a function, with any blanks around it. -/
def OpensFunction (name : String) (params : List String) (raw : String) : Prop :=
  startsWith (trim raw.toList) "fungsi ".toList ∧ header? (trim raw.toList) = some (name, params)

/-- The lines of a body in front of the first closing line at which no more blocks are open than counted
loops have been started. -/
structure CutShort (body owned : List String) : Prop where
  closed : ∃ close rest, body = owned ++ close :: rest ∧ Says closingWord close
  balanced : openAfter blockWords owned = countedLoops owned
  first : ∀ front close rest, owned = front ++ close :: rest → Says closingWord close →
    countedLoops front < openAfter blockWords front

section Functions

variable {lines : Array String} {i : Nat} {inside : Bool} {header last name : String}
  {params body rest : List String}

/-- The end that a function finds in nested lines with a closing line behind them: that line, or one that
comes too early. -/
theorem exists_bodyLength?_of_nested (h : Nested inside body) (hlast : Says closingWord last)
    (rest : List String) :
    ∃ owned, bodyLength? 0 (body ++ last :: rest) = some owned.length ∧
      (countedLoops body = 0 ∧ owned = body ∨ countedLoops body ≠ 0 ∧ CutShort body owned) := by
  have hbody := openAfter_blockWords body
  have hneg : ((0 : Nat) : Int) + openAfter functionBlockWords (body ++ [last]) < 0 := by
    rw [openAfter_append, openAfter, weight_of_closes hlast, openAfter]
    have hzero := h.openAfter_eq
    omega
  obtain ⟨n, hn, hfound⟩ := exists_bodyLength?_lt hneg rest
  rw [List.append_assoc, List.singleton_append] at hfound
  obtain ⟨owned, close, rest', hsplit, rfl, hclose, hzero, hbefore⟩ := exists_of_bodyLength? hfound
  have hwhere : owned = body ∨ ∃ mid, body = owned ++ close :: mid := by
    rw [List.length_append, List.length_singleton] at hn
    rcases List.append_eq_append_iff.1 hsplit with ⟨mid, rfl, -⟩ | ⟨mid, rfl, hmid⟩
    · obtain rfl : mid = [] := List.length_eq_zero_iff.1 (by rw [List.length_append] at hn; omega)
      exact .inl (List.append_nil body)
    · rcases List.cons_eq_append_iff.1 hmid with ⟨rfl, -⟩ | ⟨mid, rfl, -⟩
      · exact .inl (List.append_nil owned).symm
      · exact .inr ⟨mid, rfl⟩
  have howned := openAfter_blockWords owned
  refine ⟨owned, hfound, ?_⟩
  rcases hwhere with rfl | ⟨mid, rfl⟩
  · have hopen := h.openAfter_eq
    exact .inl ⟨by omega, rfl⟩
  · have hopen := h.openAfter_pos rfl hclose
    have hloops : countedLoops (owned ++ close :: mid) =
        countedLoops owned + countedLoops (close :: mid) :=
      List.countP_append
    refine .inr ⟨by omega, ⟨close, mid, rfl, hclose⟩, by omega, fun a c b ha hc => ?_⟩
    have hpos := hbefore a c b ha hc
    have hsum := openAfter_blockWords a
    omega

theorem exists_functionLength_eq (hat : LinesAt lines i (header :: (body ++ [last])))
    (h : Nested inside body) (hlast : Says closingWord last) :
    ∃ owned, functionLength lines i = owned.length ∧
      (countedLoops body = 0 ∧ owned = body ∨ countedLoops body ≠ 0 ∧ CutShort body owned) := by
  obtain ⟨before, after, hlines, rfl⟩ := hat
  obtain ⟨owned, hfound, howned⟩ := exists_bodyLength?_of_nested h hlast after
  have hdrop : lines.toList.drop (before.length + 1) = body ++ last :: after := by
    simp [hlines, ← List.drop_drop]
  exact ⟨owned, by rw [functionLength, hdrop, hfound]; rfl, howned⟩

/-- A function with some lines is defined with those that it owns. -/
theorem run_define {owned : List String} (s : State) (hat : LinesAt lines i (header :: (owned ++ rest)))
    (hheader : OpensFunction name params header) (hne : owned ≠ [])
    (hlength : functionLength lines i = owned.length) :
    (define lines i).run.run s =
      (.ok (), { s with functions := s.functions.put name ⟨params, owned.toArray⟩ }) := by
  have hextract : lines.extract (i + 1) (i + 1 + owned.length) = owned.toArray := by
    obtain ⟨before, after, hlines, rfl⟩ := hat
    apply Array.toList_inj.1
    simp [hlines]
  have hpos : owned.length ≠ 0 := fun hzero => hne (List.length_eq_zero_iff.1 hzero)
  unfold define
  rw [hat.lineAt_eq, hheader.2]
  dsimp only
  rw [hlength, if_neg hpos, hextract]
  rfl

/-- The header of a function is executed by defining it, and then the line after its end is. -/
theorem run_executeBlock_of_function {call : Caller} {stop : Nat} {s t : State}
    (hi : i < lines.size) (hs : i < stop) (hleaving : s.leaving = false)
    (hheader : startsWith (lineAt lines i) "fungsi ".toList)
    (hdefine : (define lines i).run.run s = (.ok (), t)) :
    (executeBlock call lines i stop).run.run s =
      (executeBlock call lines (i + 1 + functionLength lines i + 1) stop).run.run t := by
  have hstatement : statementAt call lines i = define lines i := if_pos hheader
  have hnext : nextLine lines i = i + 1 + functionLength lines i + 1 := if_pos hheader
  rw [executeBlock_of_lt hi hs, hstatement, hnext, inTurn, run_get_bind, hleaving]
  exact run_bind_of_ok _ hdefine

end Functions

/-- **The lines that a function owns.** Take a function anywhere in a program: its header, well nested
lines of which there is at least one, and a closing line. A search for the end of a block finds this
closing line. The function is defined, with its parameters and some of the lines, and what is executed next
is the line after the closing line behind those. They are all of its lines if no loop with `untuk ` is
among them, at any depth; if there is one, they are fewer, those that are in front of the first closing line
at which no more blocks are open than such loops have been started. So the two searches agree exactly if
there is no such loop. -/
theorem function_owns_lines {lines : Array String} {i : Nat} {inside : Bool} {header last name : String}
    {params body : List String} (hat : LinesAt lines i (header :: (body ++ [last])))
    (hheader : OpensFunction name params header) (hbody : body ≠ []) (hnested : Nested inside body)
    (hlast : Says closingWord last) :
    blockEnd lines (i + 1) [closingWord] = i + 1 + body.length ∧
    ∃ owned : List String,
      (countedLoops body = 0 ∧ owned = body ∨ countedLoops body ≠ 0 ∧ CutShort body owned) ∧
      (∀ s : State, (define lines i).run.run s =
        (.ok (), { s with functions := s.functions.put name ⟨params, owned.toArray⟩ })) ∧
      (∀ (call : Caller) (stop : Nat) (s : State), i < stop → s.leaving = false →
        (executeBlock call lines i stop).run.run s =
          (executeBlock call lines (i + 1 + owned.length + 1) stop).run.run
            { s with functions := s.functions.put name ⟨params, owned.toArray⟩ }) ∧
      (i + 1 + owned.length = blockEnd lines (i + 1) [closingWord] ↔ countedLoops body = 0) := by
  have hend : blockEnd lines (i + 1) [closingWord] = i + 1 + body.length :=
    blockEnd_of_passed hat.tail (hnested.passed (by decide) (Int.le_refl 0) fun _ _ => by decide)
      (List.mem_singleton_self closingWord) hlast
  obtain ⟨owned, hlength, howned⟩ := exists_functionLength_eq hat hnested hlast
  obtain ⟨rest, hne, hsplit⟩ : ∃ rest, owned ≠ [] ∧ body = owned ++ rest := by
    rcases howned with ⟨-, rfl⟩ | ⟨-, hcut⟩
    · exact ⟨[], hbody, (List.append_nil owned).symm⟩
    · obtain ⟨close, rest, hsplit, hclose⟩ := hcut.closed
      have hopen := hnested.openAfter_pos hsplit hclose
      exact ⟨close :: rest, fun hnil => by simp [hnil, openAfter] at hopen, hsplit⟩
  have hlines : LinesAt lines i (header :: (owned ++ (rest ++ [last]))) := by
    rwa [hsplit, List.append_assoc] at hat
  have hdefine (s : State) := run_define s hlines hheader hne hlength
  refine ⟨hend, owned, howned, hdefine, fun call stop s hs hleaving => ?_, ?_⟩
  · have hstarts : startsWith (lineAt lines i) "fungsi ".toList := by
      rw [hat.lineAt_eq]
      exact hheader.1
    rw [run_executeBlock_of_function hat.lt_size hs hleaving hstarts (hdefine s), hlength]
  · rw [hend, Nat.add_left_cancel_iff]
    rcases howned with ⟨hloops, rfl⟩ | ⟨hloops, hcut⟩
    · exact ⟨fun _ => hloops, fun _ => rfl⟩
    · obtain ⟨close, rest, hsplit, -⟩ := hcut.closed
      have hlt : owned.length < body.length := by
        rw [hsplit, List.length_append, List.length_cons]
        omega
      exact ⟨fun heq => absurd heq (by omega), fun hzero => absurd hzero hloops⟩

/-- The lines of a function with blocks of three kinds, one inside another. -/
def inspectionLines : List String :=
  "  fungsi dalam(x)" :: (["    kembalikan x"] ++ "  akhir" ::
    "  jika a" :: ("    selama b" :: (["      hentikan"] ++ "    akhir" :: ["  atau", "    lapor a"]) ++
      "  akhir" :: ["", "  kembalikan b"]))

theorem nested_inspectionLines : Nested false inspectionLines := by
  have hwhile : Nested true ("    selama b" :: (["      hentikan"] ++ "    akhir" ::
      ["  atau", "    lapor a"])) :=
    .block rfl (.line (by decide) .nil) (by decide) (.parts (.inl (by decide)) (.line (by decide) .nil))
  exact .block rfl (.line (by decide) .nil) (by decide)
    (.block rfl hwhile (by decide) (.line (by decide) (.line (by decide) .nil)))

/-- A program with that function at its second line. -/
def inspection : Array String :=
  ("lapor 0" :: "fungsi periksa(a, b)" :: (inspectionLines ++ ["akhir", "lapor 1"])).toArray

theorem function_owns_lines_inspection :
    LinesAt inspection 1 ("fungsi periksa(a, b)" :: (inspectionLines ++ ["akhir"])) ∧
    Nested false inspectionLines ∧ blockEnd inspection 2 [closingWord] = 14 ∧
    (executeBlock call inspection 1 16).run.run { chance := .steady } =
      (executeBlock call inspection 15 16).run.run
        { chance := .steady
          functions := [("periksa", ⟨["a", "b"], inspectionLines.toArray⟩)] } := by
  have hat : LinesAt inspection 1 ("fungsi periksa(a, b)" :: (inspectionLines ++ ["akhir"])) :=
    ⟨["lapor 0"], ["lapor 1"], rfl, rfl⟩
  have hheader : OpensFunction "periksa" ["a", "b"] "fungsi periksa(a, b)" :=
    ⟨by decide +kernel, by decide +kernel⟩
  obtain ⟨hend, owned, howned, -, hexecute, -⟩ := function_owns_lines hat hheader (by decide)
    nested_inspectionLines (by decide)
  have hloops : countedLoops inspectionLines = 0 := by decide +kernel
  obtain ⟨-, rfl⟩ : countedLoops inspectionLines = 0 ∧ owned = inspectionLines :=
    howned.resolve_right fun h => h.1 hloops
  exact ⟨hat, nested_inspectionLines, hend, hexecute call 16 _ (by decide) rfl⟩

/-- A function with a loop over items. -/
def looping : Array String :=
  #["fungsi f()", "untuk x dalam [1]", "lapor x", "akhir", "akhir"]

/-- The function ends with its loop, and its own closing line is not part of it. -/
theorem function_cut_short :
    LinesAt looping 0
      ("fungsi f()" :: (["untuk x dalam [1]", "lapor x", "akhir"] ++ ["akhir"])) ∧
    Nested false ["untuk x dalam [1]", "lapor x", "akhir"] ∧
    blockEnd looping 1 [closingWord] = 4 ∧
    (((define looping 0).run.run { chance := .steady }).2.functions.get? "f").map
      (fun f => f.body.toList) = some ["untuk x dalam [1]", "lapor x"] ∧
    nextLine looping 0 = 4 := by
  have hnested : Nested false ("untuk x dalam [1]" :: (["lapor x"] ++ "akhir" :: [])) :=
    .block rfl (.line (by decide) .nil) (by decide) .nil
  exact ⟨⟨[], [], rfl, rfl⟩, hnested, by decide +kernel, by decide +kernel, by decide +kernel⟩

end Birokrasi.Extended
