import Birokrasi.Proofs.LoopHeaders

/-!
# Lines are executed as the tree that they are

A block is executed statement by statement (`executeBlock_of_lt`), and every statement finds out by
itself where the lines after it start (`nextLine`). The main statement is `executeBlock_eq_tree`: for
the lines of a written tree, between any other lines, this is what the tree does by recursion on it.
-/

namespace Birokrasi.Extended

open Birokrasi.Text
open Birokrasi.Extended.Tree (inTurn runLine)

/-! ## One statement after the other -/

/-- The index of the line after the statement that starts at a line. -/
def nextLine (lines : Array String) (i : Nat) : Nat :=
  let line := lineAt lines i
  if startsWith line "fungsi ".toList then i + 1 + functionLength lines i + 1
  else if startsWith line "jika ".toList then conditionalEnd lines i
  else if startsWith line "selama ".toList || startsWith line "untuk ".toList then
    blockEnd lines (i + 1) [closingWord] + 1
  else i + 1

/-- The statement that starts at a line. -/
def statementAt (call : Caller) (lines : Array String) (i : Nat) : Run Unit :=
  let line := lineAt lines i
  let body := executeBlock call lines (i + 1) (blockEnd lines (i + 1) [closingWord])
  if startsWith line "fungsi ".toList then define lines i
  else if startsWith line "jika ".toList then executeBranch call lines i false
  else if startsWith line "selama ".toList then whileLoop (holds call (line.drop 7)) body roundLimit
  else if startsWith line "untuk ".toList then countedLoop call (LoopHeader.ofLine line) body
  else runLine call i line

section Statements

variable {call : Caller} {lines : Array String} {i stop : Nat} {rest : List Char}

/-- A line that starts with a letter is neither empty nor a comment. -/
theorem not_blank_of_startsWith {line word : List Char} (h : startsWith line word = true)
    (hword : (word.isEmpty || startsWith word ['/']) = false) :
    (line.isEmpty || startsWith line ['/', '/']) = false := by
  obtain ⟨rest, hrest⟩ := Option.isSome_iff_exists.1 h
  rw [eq_append_of_after? hrest]
  rcases word with _ | ⟨c, word⟩
  · cases hword
  · simp_all [startsWith, after?]

theorem executeBlock_of_lt (hi : i < lines.size) (hs : i < stop) :
    executeBlock call lines i stop =
      inTurn (statementAt call lines i) (executeBlock call lines (nextLine lines i) stop) := by
  rw [executeBlock, dif_pos ⟨hi, hs⟩]
  unfold inTurn statementAt nextLine
  dsimp only
  refine bind_congr fun s => ?_
  split
  · rfl
  · by_cases hf : startsWith (lineAt lines i) "fungsi ".toList
    · simp only [not_blank_of_startsWith hf (by decide), hf, Bool.false_eq_true, if_false, if_true]
    · by_cases hj : startsWith (lineAt lines i) "jika ".toList
      · simp only [not_blank_of_startsWith hj (by decide), hf, hj, Bool.false_eq_true, if_false, if_true]
      · by_cases hw : startsWith (lineAt lines i) "selama ".toList
        · simp only [not_blank_of_startsWith hw (by decide), hf, hj, hw, Bool.false_eq_true, if_false,
            if_true, Bool.true_or]
        · by_cases hu : startsWith (lineAt lines i) "untuk ".toList
          · simp only [not_blank_of_startsWith hu (by decide), hf, hj, hw, hu, Bool.false_eq_true,
              if_false, if_true, Bool.or_true]
          · simp only [hf, hj, hw, hu, Bool.false_eq_true, if_false, Bool.or_self, runLine]
            split
            · rw [pure_bind]
            · rfl

/-- A line that starts no block is a statement of its own. -/
theorem nextLine_of_not_starts (h : startsWithAny blockWords (lineAt lines i) = false) :
    nextLine lines i = i + 1 := by
  simp only [startsWithAny, blockWords, List.any_cons, List.any_nil, Bool.or_eq_false_iff] at h
  obtain ⟨hf, hj, hw, hu, -⟩ := h
  simp only [nextLine, hf, hj, hw, hu, Bool.false_eq_true, if_false, Bool.or_self]

theorem statementAt_of_not_starts (h : startsWithAny blockWords (lineAt lines i) = false) :
    statementAt call lines i = runLine call i (lineAt lines i) := by
  simp only [startsWithAny, blockWords, List.any_cons, List.any_nil, Bool.or_eq_false_iff] at h
  obtain ⟨hf, hj, hw, hu, -⟩ := h
  simp only [statementAt, hf, hj, hw, hu, Bool.false_eq_true, if_false]

theorem executeBlock_of_simple (hi : i < lines.size) (hs : i < stop)
    (h : Simple (lineAt lines i)) :
    executeBlock call lines i stop =
      inTurn (runLine call i (lineAt lines i)) (executeBlock call lines (i + 1) stop) := by
  obtain ⟨-, -, hstart⟩ := h
  have hplain := (Bool.or_eq_false_iff.1 hstart).2
  rw [executeBlock_of_lt hi hs, statementAt_of_not_starts hplain, nextLine_of_not_starts hplain]

theorem executeBlock_of_condition (hi : i < lines.size) (hs : i < stop)
    (h : lineAt lines i = "jika ".toList ++ rest) :
    executeBlock call lines i stop =
      inTurn (executeBranch call lines i false)
        (executeBlock call lines (conditionalEnd lines i) stop) := by
  have hf : startsWith ("jika ".toList ++ rest) "fungsi ".toList = false := rfl
  have hj : startsWith ("jika ".toList ++ rest) "jika ".toList = true := rfl
  rw [executeBlock_of_lt hi hs, statementAt, nextLine, h]
  simp only [hf, hj, Bool.false_eq_true, if_false, if_true]

theorem executeBlock_of_while (hi : i < lines.size) (hs : i < stop)
    (h : lineAt lines i = "selama ".toList ++ rest) :
    executeBlock call lines i stop =
      inTurn (whileLoop (holds call rest)
          (executeBlock call lines (i + 1) (blockEnd lines (i + 1) [closingWord])) roundLimit)
        (executeBlock call lines (blockEnd lines (i + 1) [closingWord] + 1) stop) := by
  have hf : startsWith ("selama ".toList ++ rest) "fungsi ".toList = false := rfl
  have hj : startsWith ("selama ".toList ++ rest) "jika ".toList = false := rfl
  have hw : startsWith ("selama ".toList ++ rest) "selama ".toList = true := rfl
  have hdrop : ("selama ".toList ++ rest).drop 7 = rest := rfl
  rw [executeBlock_of_lt hi hs, statementAt, nextLine, h]
  simp only [hf, hj, hw, hdrop, Bool.false_eq_true, if_false, if_true, Bool.true_or]

theorem executeBlock_of_count (hi : i < lines.size) (hs : i < stop)
    (h : lineAt lines i = "untuk ".toList ++ rest) :
    executeBlock call lines i stop =
      inTurn (countedLoop call (LoopHeader.ofLine (lineAt lines i))
          (executeBlock call lines (i + 1) (blockEnd lines (i + 1) [closingWord])))
        (executeBlock call lines (blockEnd lines (i + 1) [closingWord] + 1) stop) := by
  have hf : startsWith ("untuk ".toList ++ rest) "fungsi ".toList = false := rfl
  have hj : startsWith ("untuk ".toList ++ rest) "jika ".toList = false := rfl
  have hw : startsWith ("untuk ".toList ++ rest) "selama ".toList = false := rfl
  have hu : startsWith ("untuk ".toList ++ rest) "untuk ".toList = true := rfl
  rw [executeBlock_of_lt hi hs, statementAt, nextLine, h]
  simp only [hf, hj, hw, hu, Bool.false_eq_true, if_false, if_true, Bool.or_true]

/-! ## Conditionals -/

theorem executeBranch_of_closes (hi : i < lines.size) (h : lineAt lines i = closingWord.toList)
    (done : Bool) : executeBranch call lines i done = pure () := by
  have hb : Branch.ofLine closingWord.toList = .close := rfl
  rw [executeBranch, dif_pos hi, h, hb]

theorem executeBranch_of_parts (hi : i < lines.size) (h : lineAt lines i = "atau".toList)
    (done : Bool) :
    executeBranch call lines i done = (do
      if !done then executeBlock call lines (i + 1) (blockEnd lines (i + 1) [closingWord])
      executeBranch call lines (blockEnd lines (i + 1) [closingWord]) done) := by
  have hb : Branch.ofLine "atau".toList = .otherwise := rfl
  rw [executeBranch, dif_pos hi, h, hb]

theorem executeBranch_of_condition (hi : i < lines.size)
    (h : lineAt lines i = "jika ".toList ++ rest) :
    executeBranch call lines i false = (do
      let chosen ← holds call (trim rest)
      if chosen then executeBlock call lines (i + 1) (blockEnd lines (i + 1) branchWords)
      executeBranch call lines (blockEnd lines (i + 1) branchWords) chosen) := by
  have hb : Branch.ofLine ("jika ".toList ++ rest) = .condition (trim rest) := by
    rw [Branch.ofLine, after?_append]
  rw [executeBranch, dif_pos hi, h, hb]
  simp only [Bool.not_false, Bool.and_true, Bool.false_or]

theorem conditionalEnd_of_closes (hi : i < lines.size) (h : lineAt lines i = closingWord.toList) :
    conditionalEnd lines i = i + 1 := by
  have hb : Branch.ofLine closingWord.toList = .close := rfl
  rw [conditionalEnd, dif_pos hi, h, hb]

theorem conditionalEnd_of_parts (hi : i < lines.size) (h : lineAt lines i = "atau".toList) :
    conditionalEnd lines i = conditionalEnd lines (blockEnd lines (i + 1) [closingWord]) := by
  have hb : Branch.ofLine "atau".toList = .otherwise := rfl
  rw [conditionalEnd, dif_pos hi, h, hb]

theorem conditionalEnd_of_condition (hi : i < lines.size)
    (h : lineAt lines i = "jika ".toList ++ rest) :
    conditionalEnd lines i = conditionalEnd lines (blockEnd lines (i + 1) branchWords) := by
  have hb : Branch.ofLine ("jika ".toList ++ rest) = .condition (trim rest) := by
    rw [Branch.ofLine, after?_append]
  rw [conditionalEnd, dif_pos hi, h, hb]

end Statements

/-! ## Sequences -/

theorem evaluate_trim (call : Caller) (text : List Char) :
    evaluate call (trim text) = evaluate call text := by
  rw [evaluate, evaluate, trim_trim]

theorem holds_trim (call : Caller) (text : List Char) :
    holds call (trim text) = holds call text := by
  rw [holds, holds, evaluate_trim]

section Sequences

variable {call : Caller} {lines : Array String} {i stop : Nat} {t body otherwise : Tree}
  {ls bs os : List String} {first middle last : String} {condition : List Char}

theorem LinesAt.lineAt_of_says {word : String} (hat : LinesAt lines i (last :: ls))
    (h : Says word last) : lineAt lines i = word.toList := by
  rw [hat.lineAt_eq, h]

theorem LinesAt.lt_size (hat : LinesAt lines i (last :: ls)) : i < lines.size := by
  have := hat.le_size
  rw [List.length_cons] at this
  omega

theorem executeBlock_of_branch (hat : LinesAt lines i (first :: (bs ++ last :: ls)))
    (hfirst : Opens "jika " condition first) (hb : Written body bs) (hlast : Says closingWord last)
    (hs : i < stop) :
    executeBlock call lines i stop =
      inTurn (do if (← holds call condition) then executeBlock call lines (i + 1) (i + 1 + bs.length))
        (executeBlock call lines (i + 1 + bs.length + 1) stop) := by
  obtain ⟨rest, hline, rfl⟩ := hfirst
  rw [← hat.lineAt_eq] at hline
  have hend := blockEnd_of_written hat.tail hb (List.Subset.refl branchWords) (by decide) hlast
  have hat' := hat.tail.right
  have hclose := hat'.lineAt_of_says hlast
  rw [executeBlock_of_condition hat.lt_size hs hline, conditionalEnd_of_condition hat.lt_size hline,
    hend, conditionalEnd_of_closes hat'.lt_size hclose,
    executeBranch_of_condition hat.lt_size hline, hend]
  simp only [executeBranch_of_closes hat'.lt_size hclose, bind_pure_unit]

theorem executeBlock_of_choice
    (hat : LinesAt lines i (first :: (bs ++ middle :: (os ++ last :: ls))))
    (hfirst : Opens "jika " condition first) (hb : Written body bs) (hmiddle : Says "atau" middle)
    (ho : Written otherwise os) (hlast : Says closingWord last) (hs : i < stop) :
    executeBlock call lines i stop =
      inTurn
        (do
          if (← holds call condition) then executeBlock call lines (i + 1) (i + 1 + bs.length)
          else
            executeBlock call lines (i + 1 + bs.length + 1) (i + 1 + bs.length + 1 + os.length))
        (executeBlock call lines (i + 1 + bs.length + 1 + os.length + 1) stop) := by
  obtain ⟨rest, hline, rfl⟩ := hfirst
  rw [← hat.lineAt_eq] at hline
  have hend := blockEnd_of_written hat.tail hb (List.Subset.refl branchWords) (by decide) hmiddle
  have hat' := hat.tail.right
  have hparts := hat'.lineAt_of_says hmiddle
  have hend' := blockEnd_of_written hat'.tail ho (by decide) (List.mem_singleton_self _) hlast
  have hat'' := hat'.tail.right
  have hclose := hat''.lineAt_of_says hlast
  rw [executeBlock_of_condition hat.lt_size hs hline, conditionalEnd_of_condition hat.lt_size hline,
    hend, conditionalEnd_of_parts hat'.lt_size hparts, hend',
    conditionalEnd_of_closes hat''.lt_size hclose, executeBranch_of_condition hat.lt_size hline, hend]
  simp only [executeBranch_of_parts hat'.lt_size hparts, hend',
    executeBranch_of_closes hat''.lt_size hclose, bind_pure_unit]
  refine congrArg (inTurn · _) (bind_congr fun chosen => ?_)
  cases chosen with
  | true => simp
  | false => simp

theorem executeBlock_of_loop (hat : LinesAt lines i (first :: (bs ++ last :: ls)))
    (hfirst : Opens "selama " condition first) (hb : Written body bs)
    (hlast : Says closingWord last) (hs : i < stop) :
    executeBlock call lines i stop =
      inTurn (whileLoop (holds call condition)
          (executeBlock call lines (i + 1) (i + 1 + bs.length)) roundLimit)
        (executeBlock call lines (i + 1 + bs.length + 1) stop) := by
  obtain ⟨rest, hline, rfl⟩ := hfirst
  rw [← hat.lineAt_eq] at hline
  have hend := blockEnd_of_written hat.tail hb (by decide) (List.mem_singleton_self _) hlast
  rw [executeBlock_of_while hat.lt_size hs hline, hend, holds_trim]

/-- A counted loop runs over what its header is read as. -/
theorem executeBlock_of_header {name : String} {span : Span}
    (hat : LinesAt lines i (first :: (bs ++ last :: ls))) (hfirst : OpensLoop name span first)
    (hb : Written body bs) (hlast : Says closingWord last) (hs : i < stop) :
    executeBlock call lines i stop =
      inTurn (countedLoop call (LoopHeader.ofLine (span.header name))
          (executeBlock call lines (i + 1) (i + 1 + bs.length)))
        (executeBlock call lines (i + 1 + bs.length + 1) stop) := by
  have hline : lineAt lines i = span.header name := hat.lineAt_eq.trans hfirst.line
  have hend := blockEnd_of_written hat.tail hb (by decide) (List.mem_singleton_self _) hlast
  rw [executeBlock_of_count hat.lt_size hs hline, hline, hend]

/-- The lines of a sequence do what the sequence does, if its headers are legible. -/
theorem Written.executeBlock_eq (h : Written t ls) (hlegible : t.legible = true)
    (hat : LinesAt lines i ls) (hstop : stop = i + ls.length) :
    executeBlock call lines i stop = t.run call i := by
  induction h generalizing i stop with
  | nil =>
    rw [executeBlock, dif_neg (by simp [hstop])]
    rfl
  | line hline hs _ ih =>
    simp only [List.length_cons] at hstop
    rw [← hat.lineAt_eq] at hline
    rw [executeBlock_of_simple hat.lt_size (by omega) (hline ▸ hs), hline,
      ih hlegible hat.tail (by omega)]
    rfl
  | branch hfirst hb hlast _ ihb ih =>
    simp only [List.length_cons, List.length_append] at hstop
    rw [Tree.legible, Bool.and_eq_true] at hlegible
    rw [executeBlock_of_branch hat hfirst hb hlast (by omega), ihb hlegible.1 hat.tail.left rfl,
      ih hlegible.2 hat.tail.right.tail (by omega), hb.length_eq]
    rfl
  | choice hfirst hb hmiddle ho hlast _ ihb iho ih =>
    simp only [List.length_cons, List.length_append] at hstop
    rw [Tree.legible, Bool.and_eq_true, Bool.and_eq_true] at hlegible
    obtain ⟨⟨hbody, hotherwise⟩, hnext⟩ := hlegible
    rw [executeBlock_of_choice hat hfirst hb hmiddle ho hlast (by omega), ihb hbody hat.tail.left rfl,
      iho hotherwise hat.tail.right.tail.left rfl, ih hnext hat.tail.right.tail.right.tail (by omega),
      hb.length_eq, ho.length_eq]
    rfl
  | loop hfirst hb hlast _ ihb ih =>
    simp only [List.length_cons, List.length_append] at hstop
    rw [Tree.legible, Bool.and_eq_true] at hlegible
    rw [executeBlock_of_loop hat hfirst hb hlast (by omega), ihb hlegible.1 hat.tail.left rfl,
      ih hlegible.2 hat.tail.right.tail (by omega), hb.length_eq]
    rfl
  | count hfirst hb hlast _ ihb ih =>
    simp only [List.length_cons, List.length_append] at hstop
    rw [Tree.legible, Bool.and_eq_true, Bool.and_eq_true] at hlegible
    obtain ⟨⟨hheader, hbody⟩, hnext⟩ := hlegible
    rw [executeBlock_of_header hat hfirst hb hlast (by omega),
      (ofLine_header_iff hfirst.isName hfirst.isExpr).2 hheader, ihb hbody hat.tail.left rfl,
      ih hnext hat.tail.right.tail (by omega), hb.length_eq]
    rfl

end Sequences

/-- Between any other lines, in any state and however calls are made, the lines of a sequence whose headers
are legible do what the sequence does by recursion on its tree: they come to an end if and only if it does,
with the same state, the same output and the same failure, which names the number of its line. That headers
be legible is needed: those that are not are read as something else. -/
theorem executeBlock_eq_tree (call : Caller) {t : Tree} {ls : List String} (h : Written t ls)
    (before after : List String) (s : State) :
    (t.legible = true →
      (executeBlock call (before ++ ls ++ after).toArray before.length
        (before.length + ls.length)).run.run s = (t.run call before.length).run.run s) ∧
    ∀ (name : String) (span : Span), IsName name → (∀ expr ∈ span.exprs, IsExpr expr) →
      (LoopHeader.ofLine (span.header name) = .over name span ↔ span.legible name = true) := by
  refine ⟨fun hlegible => ?_, fun name span hname hspan => ofLine_header_iff hname hspan⟩
  rw [h.executeBlock_eq hlegible ⟨before, after, rfl, rfl⟩ rfl]

/-- A program with blocks of all kinds inside one another. -/
def nestedLines : List String :=
  ["jika x > 0", "  untuk i dari x - 1 sampai x + 2", "    jika i == 2", "      lanjut", "    atau",
    "      lapor i", "    akhir", "  akhir", "atau", "\tselama x < 3", "    x = x + 1", "  akhir",
    "akhir  ", "untuk y dalam [1, 2]", "  // sekali saja", "  jika y > 1", "    hentikan", "  akhir",
    "akhir"]

/-- The tree of that program. -/
def nested : Tree :=
  .choice "x > 0".toList
    (.count "i" (.range "x - 1".toList "x + 2".toList)
      (.choice "i == 2".toList (.line "lanjut".toList .nil) (.line "lapor i".toList .nil) .nil) .nil)
    (.loop "x < 3".toList (.line "x = x + 1".toList .nil) .nil)
    (.count "y" (.items "[1, 2]".toList)
      (.line "// sekali saja".toList
        (.branch "y > 1".toList (.line "hentikan".toList .nil) .nil))
      .nil)

theorem written_nested : Written nested nestedLines := by
  have hskip : Written (.line "lanjut".toList .nil) ["      lanjut"] :=
    .line (by decide) (by decide) .nil
  have hreport : Written (.line "lapor i".toList .nil) ["      lapor i"] :=
    .line (by decide) (by decide) .nil
  have hstep : Written (.line "x = x + 1".toList .nil) ["    x = x + 1"] :=
    .line (by decide) (by decide) .nil
  have hbreak : Written (.line "hentikan".toList .nil) ["    hentikan"] :=
    .line (by decide) (by decide) .nil
  have hfirst : Opens "jika " "x > 0".toList "jika x > 0" := ⟨"x > 0".toList, by decide, by decide⟩
  have hsecond : Opens "jika " "i == 2".toList "    jika i == 2" :=
    ⟨"i == 2".toList, by decide, by decide⟩
  have hthird : Opens "jika " "y > 1".toList "  jika y > 1" := ⟨"y > 1".toList, by decide, by decide⟩
  have hwhile : Opens "selama " "x < 3".toList "\tselama x < 3" :=
    ⟨"x < 3".toList, by decide, by decide⟩
  have hrange : OpensLoop "i" (.range "x - 1".toList "x + 2".toList)
      "  untuk i dari x - 1 sampai x + 2" := by decide
  have hitems : OpensLoop "y" (.items "[1, 2]".toList) "untuk y dalam [1, 2]" := by decide
  have hparts : Says "atau" "    atau" ∧ Says "atau" "atau" := by decide
  have hcloses : Says closingWord "    akhir" ∧ Says closingWord "  akhir" ∧
      Says closingWord "akhir  " ∧ Says closingWord "akhir" := by decide
  obtain ⟨hdeep, hinner, hblank, hclose⟩ := hcloses
  have hcount := Written.count hrange (.choice hsecond hskip hparts.1 hreport hdeep .nil) hinner .nil
  have hloop := Written.loop hwhile hstep hinner .nil
  have hcomment : trim "  // sekali saja".toList = "// sekali saja".toList := by decide
  have hbody := Written.line hcomment (by decide) (.branch hthird hbreak hinner .nil)
  exact .choice hfirst hcount hparts.2 hloop hblank (.count hitems hbody hclose .nil)

theorem executeBlock_eq_tree_nested :
    Written nested nestedLines ∧ nested.legible = true ∧
    (executeBlock call (["x = 1", "untuk"] ++ nestedLines ++ ["akhir", "lapor x"]).toArray 2
      (2 + nestedLines.length)).run.run (State.assign { chance := .steady } "x" (.int 1)) =
    (nested.run call 2).run.run (State.assign { chance := .steady } "x" (.int 1)) :=
  have hlegible : nested.legible = true := by decide
  ⟨written_nested, hlegible,
    (executeBlock_eq_tree call written_nested ["x = 1", "untuk"] ["akhir", "lapor x"] _).1 hlegible⟩

/-- A loop whose variable holds the first word of its header. -/
def misnamed : Tree :=
  .count "peruntukan" (.items "[salah, benar]".toList) (.line "lapor peruntukan".toList .nil) .nil

/-- The lines of that loop. -/
def misnamedLines : List String :=
  ["untuk peruntukan dalam [salah, benar]", "  lapor peruntukan", "akhir"]

/-- The tree reports both items; the lines set another variable, and fail at the first report. -/
theorem executeBlock_ne_tree :
    Written misnamed misnamedLines ∧
    ((misnamed.run call 0).run.run { chance := .steady }).2.printed = #["salah\n", "benar\n"] ∧
    ((executeBlock call misnamedLines.toArray 0 3).run.run { chance := .steady }).2.printed = #[] ∧
    ((executeBlock call misnamedLines.toArray 0 3).run.run { chance := .steady }).2.variables.keys =
      ["peran"] := by
  have hopens : OpensLoop "peruntukan" (.items "[salah, benar]".toList)
      "untuk peruntukan dalam [salah, benar]" := by decide
  have hbody : Written (.line "lapor peruntukan".toList .nil) ["  lapor peruntukan"] :=
    .line (by decide) (by decide) .nil
  have hcloses : Says closingWord "akhir" := by decide
  have hat : LinesAt misnamedLines.toArray 0 misnamedLines := ⟨[], [], rfl, rfl⟩
  have hread : LoopHeader.ofLine (Span.header "peruntukan" (.items "[salah, benar]".toList)) =
      .over "peran" (.items "[salah, benar]".toList) := by rfl
  have hrest : executeBlock call misnamedLines.toArray 3 3 = pure () := by
    rw [executeBlock, dif_neg (by decide)]
  have hlines : executeBlock call misnamedLines.toArray 0 3 =
      inTurn (countedLoop call (.over "peran" (.items "[salah, benar]".toList))
        ((Tree.line "lapor peruntukan".toList .nil).run call 1)) (pure ()) := by
    rw [executeBlock_of_header hat hopens hbody hcloses (by decide), hread,
      hbody.executeBlock_eq rfl hat.tail.left rfl]
    exact congrArg _ hrest
  rw [hlines]
  exact ⟨.count hopens hbody hcloses .nil, by decide +kernel, by decide +kernel, by decide +kernel⟩

end Birokrasi.Extended
