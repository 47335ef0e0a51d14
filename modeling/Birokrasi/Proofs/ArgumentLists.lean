import Birokrasi.Extended.Arguments
import Birokrasi.Proofs.Cutting

/-!
# Argument lists are found again

A call is written with its arguments between parentheses and with commas between them. Two scanners read
it: one looks for the parenthesis that closes the call and counts parentheses only, the other one looks
for commas and counts brackets of all kinds. A text whose quotes are closed and whose brackets match
(`Bracketed`) is gone over by both of them: each comes out of it as it went in, with the characters passed
on (`uptoClosing_append`, `cutAtCommas_append`).

The main statement is `arguments_found`: what was written as an argument list is found as the text between
the parentheses, whatever follows the call, and taken apart into its arguments, whatever blanks stand
around these.
-/

namespace Birokrasi.Extended

open Birokrasi.Text

variable {c q : Char} {s t : List Char} {quote : Option Char} {inside : Bool}

/-! ## Bracketed texts -/

/-- The characters that a scanner heeds: quotes, brackets and the comma. -/
def heeded : List Char := ['"', '\'', '(', ')', '[', ']', '\x7b', '\x7d', ',']

/-- The brackets, each with the one that closes it. -/
def bracketPairs : List (Char × Char) := [('(', ')'), ('[', ']'), ('\x7b', '\x7d')]

/-- Texts of ordinary characters, of quoted texts that do not hold their own quote, and of matching
brackets with such texts inside. A comma stands inside of brackets or quotes only, unless the text itself
is `inside` of brackets. -/
inductive Bracketed : (inside : Bool) → List Char → Prop where
  | nil {inside : Bool} : Bracketed inside []
  | ordinary {inside : Bool} {c : Char} {s : List Char} :
    c ∉ heeded → Bracketed inside s → Bracketed inside (c :: s)
  | comma {s : List Char} : Bracketed true s → Bracketed true (',' :: s)
  | quoted {inside : Bool} {q : Char} {content s : List Char} :
    q = '"' ∨ q = '\'' → q ∉ content → Bracketed inside s →
      Bracketed inside (q :: (content ++ q :: s))
  | group {inside : Bool} {l r : Char} {content s : List Char} :
    (l, r) ∈ bracketPairs → Bracketed true content → Bracketed inside s →
      Bracketed inside (l :: (content ++ r :: s))

namespace Bracketed

theorem append (hs : Bracketed inside s) (ht : Bracketed inside t) : Bracketed inside (s ++ t) := by
  induction hs with
  | nil => exact ht
  | ordinary hc _ ih => exact .ordinary hc (ih ht)
  | comma _ ih => exact .comma (ih ht)
  | quoted hq hcontent _ ih =>
    rw [List.cons_append, List.append_assoc, List.cons_append]
    exact .quoted hq hcontent (ih ht)
  | group hpair hcontent _ _ ih =>
    rw [List.cons_append, List.append_assoc, List.cons_append]
    exact .group hpair hcontent (ih ht)

/-- Brackets may be put around any bracketed text. -/
theorem enclosed (h : Bracketed inside s) : Bracketed true s := by
  induction h with
  | nil => exact .nil
  | ordinary hc _ ih => exact .ordinary hc ih
  | comma _ ih => exact .comma ih
  | quoted hq hcontent _ ih => exact .quoted hq hcontent ih
  | group hpair hcontent _ _ ih => exact .group hpair hcontent ih

theorem of_ordinary (h : ∀ c ∈ s, c ∉ heeded) : Bracketed inside s := by
  induction s with
  | nil => exact .nil
  | cons c s ih =>
    exact .ordinary (h c List.mem_cons_self) (ih fun d hd => h d (List.mem_cons_of_mem c hd))

end Bracketed

theorem bracketed_blanks (h : s.all isBlank = true) : Bracketed inside s := by
  have hheeded : heeded.all (fun c => !isBlank c) = true := by decide
  refine .of_ordinary fun c hc hmem => ?_
  have hblank := List.all_eq_true.1 h c hc
  have hnot := List.all_eq_true.1 hheeded c hmem
  rw [hblank] at hnot
  cases hnot

/-! ## What a scanner makes of a character -/

theorem plain_of_ordinary (h : c ∉ heeded) :
    isPlain none c = true ∧ c ≠ '(' ∧ c ≠ ')' ∧ c ≠ ',' ∧ bracketStep c = 0 := by
  simp only [heeded, List.mem_cons, List.not_mem_nil, or_false, not_or] at h
  simp [isPlain, bracketStep, h]

theorem plain_of_pair {l r : Char} (h : (l, r) ∈ bracketPairs) :
    (isPlain none l = true ∧ l ≠ ',' ∧ bracketStep l = 1) ∧
      isPlain none r = true ∧ r ≠ ',' ∧ bracketStep r = -1 := by
  simp only [bracketPairs, List.mem_cons, List.not_mem_nil, or_false, Prod.mk.injEq] at h
  rcases h with ⟨rfl, rfl⟩ | ⟨rfl, rfl⟩ | ⟨rfl, rfl⟩ <;> decide

theorem isPlain_quote (h : q = '"' ∨ q = '\'') :
    isPlain none q = false ∧ quoteAfter none q = some q := by
  rcases h with rfl | rfl <;> decide

theorem isPlain_quoted (q c : Char) : isPlain (some q) c = false := rfl

/-! ## The closing parenthesis -/

section Closing

variable {depth : Nat}

theorem uptoClosing_plain (hp : isPlain quote c = true) (hopen : c ≠ '(') (hclose : c ≠ ')') :
    uptoClosing quote depth (c :: s) = (uptoClosing quote depth s).map (c :: ·) := by
  simp only [uptoClosing, hp, hopen, hclose, if_true, if_false]

theorem uptoClosing_open (depth : Nat) (s : List Char) :
    uptoClosing none depth ('(' :: s) = (uptoClosing none (depth + 1) s).map ('(' :: ·) := by
  simp [uptoClosing, isPlain]

theorem uptoClosing_close (depth : Nat) (s : List Char) :
    uptoClosing none (depth + 1) (')' :: s) = (uptoClosing none depth s).map (')' :: ·) := by
  simp [uptoClosing, isPlain]

theorem uptoClosing_last (s : List Char) : uptoClosing none 0 (')' :: s) = some [] := by
  simp [uptoClosing, isPlain]

theorem uptoClosing_hidden (hp : isPlain quote c = false) :
    uptoClosing quote depth (c :: s) = (uptoClosing (quoteAfter quote c) depth s).map (c :: ·) := by
  simp only [uptoClosing, hp, Bool.false_eq_true, if_false]

/-- Inside of quotes nothing counts but the quote that closes them. -/
theorem uptoClosing_content {content : List Char} (hq : q ∉ content) :
    uptoClosing (some q) depth (content ++ q :: s) =
      (uptoClosing none depth s).map (content ++ q :: ·) := by
  induction content with
  | nil =>
    rw [List.nil_append, uptoClosing_hidden (isPlain_quoted q q), quoteAfter, if_pos rfl]
    rfl
  | cons c content ih =>
    obtain ⟨hne, hrest⟩ := not_or.1 (fun h => hq (List.mem_cons.2 h))
    rw [List.cons_append, uptoClosing_hidden (isPlain_quoted q c), quoteAfter,
      if_neg (Ne.symm hne), ih hrest, Option.map_map]
    rfl

/-- What stands in brackets is passed on with them. A parenthesis is counted and counted off again, and
the other brackets are not heeded here. -/
theorem uptoClosing_group {l r : Char} {content : List Char} (hpair : (l, r) ∈ bracketPairs)
    (hcontent : ∀ (depth : Nat) (s : List Char),
      uptoClosing none depth (content ++ s) = (uptoClosing none depth s).map (content ++ ·)) :
    uptoClosing none depth (l :: (content ++ r :: s)) =
      (uptoClosing none depth s).map fun rest => l :: (content ++ r :: rest) := by
  simp only [bracketPairs, List.mem_cons, List.not_mem_nil, or_false, Prod.mk.injEq] at hpair
  rcases hpair with ⟨rfl, rfl⟩ | ⟨rfl, rfl⟩ | ⟨rfl, rfl⟩
  · rw [uptoClosing_open, hcontent, uptoClosing_close, Option.map_map, Option.map_map]
    rfl
  all_goals
    rw [uptoClosing_plain (by decide) (by decide) (by decide), hcontent,
      uptoClosing_plain (by decide) (by decide) (by decide), Option.map_map, Option.map_map]
    rfl

/-- A bracketed text is passed on whole, and the parenthesis that closes the call is looked for behind
it. -/
theorem uptoClosing_append (h : Bracketed inside t) (depth : Nat) (s : List Char) :
    uptoClosing none depth (t ++ s) = (uptoClosing none depth s).map (t ++ ·) := by
  induction h generalizing depth s with
  | nil => simp
  | ordinary hc _ ih =>
    obtain ⟨hp, hopen, hclose, -⟩ := plain_of_ordinary hc
    rw [List.cons_append, uptoClosing_plain hp hopen hclose, ih, Option.map_map]
    rfl
  | comma _ ih =>
    rw [List.cons_append, uptoClosing_plain (by decide) (by decide) (by decide), ih, Option.map_map]
    rfl
  | quoted hq hcontent _ ih =>
    obtain ⟨hp, hquote⟩ := isPlain_quote hq
    rw [List.cons_append, List.append_assoc, List.cons_append, uptoClosing_hidden hp, hquote,
      uptoClosing_content hcontent, ih, Option.map_map, Option.map_map]
    congr 1
    funext rest
    simp
  | group hpair _ _ ihcontent ih =>
    rw [List.cons_append, List.append_assoc, List.cons_append, uptoClosing_group hpair ihcontent, ih,
      Option.map_map]
    congr 1
    funext rest
    simp

theorem uptoClosing_quoted (hq : q ∉ s) : uptoClosing (some q) depth s = none := by
  induction s with
  | nil => rfl
  | cons c s ih =>
    obtain ⟨hne, hrest⟩ := not_or.1 fun h => hq (List.mem_cons.2 h)
    rw [uptoClosing_hidden (isPlain_quoted q c), quoteAfter, if_neg (Ne.symm hne), ih hrest]
    rfl

/-- What is not closed in the whole is not closed in a front of it either. -/
theorem uptoClosing_eq_none (t : List Char) (h : uptoClosing quote depth (s ++ t) = none) :
    uptoClosing quote depth s = none := by
  induction s generalizing quote depth with
  | nil => rfl
  | cons c s ih =>
    simp only [List.cons_append, uptoClosing] at h ⊢
    split
    next hplain =>
      rw [if_pos hplain] at h
      split
      next hopen =>
        rw [if_pos hopen, Option.map_eq_none_iff] at h
        rw [ih h, Option.map_none]
      next hopen =>
        rw [if_neg hopen] at h
        split
        next hclose =>
          rw [if_pos hclose] at h
          cases depth with
          | zero => cases h
          | succ depth =>
            rw [Option.map_eq_none_iff] at h
            dsimp only
            rw [ih h, Option.map_none]
        next hclose =>
          rw [if_neg hclose, Option.map_eq_none_iff] at h
          rw [ih h, Option.map_none]
    next hplain =>
      rw [if_neg hplain, Option.map_eq_none_iff] at h
      rw [ih h, Option.map_none]

end Closing

/-! ## The commas -/

/-- Pieces of which the first one has a text in front of it. -/
def withFront (front : List Char) (pieces : List Char × List (List Char)) :
    List Char × List (List Char) :=
  (front ++ pieces.1, pieces.2)

theorem withFront_withFront (s t : List Char) (pieces : List Char × List (List Char)) :
    withFront s (withFront t pieces) = withFront (s ++ t) pieces := by
  simp [withFront]

section Commas

variable {depth : Int}

theorem cutAtCommas_plain (hp : isPlain quote c = true) (hc : c = ',' → depth ≠ 0) :
    cutAtCommas quote depth (c :: s) =
      withFront [c] (cutAtCommas quote (depth + bracketStep c) s) := by
  have hnot : ¬ (decide (c = ',') && decide (depth = 0)) = true := by simpa using hc
  rw [cutAtCommas, if_pos hp, if_neg hnot]
  rfl

theorem cutAtCommas_hidden (hp : isPlain quote c = false) :
    cutAtCommas quote depth (c :: s) =
      withFront [c] (cutAtCommas (quoteAfter quote c) depth s) := by
  rw [cutAtCommas, hp]
  rfl

theorem cutAtCommas_comma (s : List Char) :
    cutAtCommas none 0 (',' :: s) =
      ([], (cutAtCommas none 0 s).1 :: (cutAtCommas none 0 s).2) := by
  rw [cutAtCommas]
  rfl

theorem cutAtCommas_content {content : List Char} (hq : q ∉ content) :
    cutAtCommas (some q) depth (content ++ q :: s) =
      withFront (content ++ [q]) (cutAtCommas none depth s) := by
  induction content with
  | nil =>
    rw [List.nil_append, cutAtCommas_hidden (isPlain_quoted q q), quoteAfter, if_pos rfl]
    rfl
  | cons c content ih =>
    obtain ⟨hne, hrest⟩ := not_or.1 (fun h => hq (List.mem_cons.2 h))
    rw [List.cons_append, cutAtCommas_hidden (isPlain_quoted q c), quoteAfter,
      if_neg (Ne.symm hne), ih hrest, withFront_withFront]
    rfl

/-- A bracketed text is passed on whole, as long as it stands inside of brackets if it may have commas:
the depth is the same behind it as in front of it. -/
theorem cutAtCommas_append (h : Bracketed inside t) (hdepth : 0 ≤ depth)
    (hinside : inside = true → 0 < depth) (s : List Char) :
    cutAtCommas none depth (t ++ s) = withFront t (cutAtCommas none depth s) := by
  induction h generalizing depth s with
  | nil => simp [withFront]
  | ordinary hc _ ih =>
    obtain ⟨hp, -, -, hcomma, hstep⟩ := plain_of_ordinary hc
    rw [List.cons_append, cutAtCommas_plain hp (fun h => absurd h hcomma), hstep, Int.add_zero,
      ih hdepth hinside, withFront_withFront]
    rfl
  | comma _ ih =>
    have hpos : 0 < depth := hinside rfl
    rw [List.cons_append, cutAtCommas_plain (by decide) (fun _ => by omega),
      show bracketStep ',' = 0 by decide, Int.add_zero, ih hdepth hinside, withFront_withFront]
    rfl
  | quoted hq hcontent _ ih =>
    obtain ⟨hp, hquote⟩ := isPlain_quote hq
    rw [List.cons_append, List.append_assoc, List.cons_append, cutAtCommas_hidden hp, hquote,
      cutAtCommas_content hcontent, ih hdepth hinside, withFront_withFront, withFront_withFront]
    simp
  | group hpair _ _ ihcontent ih =>
    obtain ⟨⟨hl, hlcomma, hlstep⟩, hr, hrcomma, hrstep⟩ := plain_of_pair hpair
    rw [List.cons_append, List.append_assoc, List.cons_append,
      cutAtCommas_plain hl (fun h => absurd h hlcomma), hlstep,
      ihcontent (by omega) (fun _ => by omega),
      cutAtCommas_plain hr (fun h => absurd h hrcomma), hrstep,
      show depth + 1 + -1 = depth by omega, ih hdepth hinside]
    simp [withFront]

end Commas

/-! ## Arguments -/

/-- An argument as it is written: a bracketed text, which does not start or end with a blank, with blanks
in front of it and behind it. -/
structure Argument where
  before : List Char := []
  text : List Char
  behind : List Char := []
  bracketed : Bracketed false text
  ne_nil : text ≠ []
  trimmed : trim text = text
  blank_before : before.all isBlank = true := by decide
  blank_behind : behind.all isBlank = true := by decide

namespace Argument

/-- The characters of an argument, with the blanks. -/
def written (a : Argument) : List Char := a.before ++ a.text ++ a.behind

theorem bracketed_written (a : Argument) : Bracketed false a.written :=
  ((bracketed_blanks a.blank_before).append a.bracketed).append (bracketed_blanks a.blank_behind)

theorem trim_written (a : Argument) : trim a.written = a.text :=
  trim_between a.ne_nil a.trimmed a.blank_before a.blank_behind

end Argument

/-- Arguments with commas between them. -/
def listed : List Argument → List Char
  | [] => []
  | [a] => a.written
  | a :: rest => a.written ++ ',' :: listed rest

theorem bracketed_listed (args : List Argument) : Bracketed true (listed args) := by
  fun_induction listed args with
  | case1 => exact .nil
  | case2 a => exact a.bracketed_written.enclosed
  | case3 a rest _ ih => exact a.bracketed_written.enclosed.append (.comma ih)

theorem cutAtCommas_listed (a : Argument) (rest : List Argument) :
    cutAtCommas none 0 (listed (a :: rest)) = (a.written, rest.map Argument.written) := by
  induction rest generalizing a with
  | nil =>
    rw [listed, ← List.append_nil a.written,
      cutAtCommas_append a.bracketed_written (Int.le_refl 0) nofun]
    simp [withFront, cutAtCommas]
  | cons b rest ih =>
    rw [listed, cutAtCommas_append a.bracketed_written (Int.le_refl 0) nofun, cutAtCommas_comma, ih]
    · simp [withFront]
    · simp

theorem withoutBlankLast_written (args : List Argument) :
    withoutBlankLast (args.map Argument.written) = args.map Argument.text := by
  induction args with
  | nil => rfl
  | cons a rest ih =>
    cases rest with
    | nil => simp [withoutBlankLast, a.trim_written, a.ne_nil]
    | cons b rest =>
      rw [List.map_cons, List.map_cons, withoutBlankLast, a.trim_written, ← List.map_cons, ih]
      · rfl
      · simp

theorem splitArguments_listed (args : List Argument) :
    splitArguments (listed args) = args.map Argument.text := by
  cases args with
  | nil => rfl
  | cons a rest =>
    rw [splitArguments, cutAtCommas_listed]
    exact withoutBlankLast_written (a :: rest)

theorem callArguments?_listed (f : List Char) (args : List Argument) (trailing : List Char) :
    callArguments? (f ++ '(' :: (listed args ++ ')' :: trailing)) (f.length + 1) =
      some (listed args) := by
  have hdrop : (f ++ '(' :: (listed args ++ ')' :: trailing)).drop (f.length + 1) =
      listed args ++ ')' :: trailing := by
    rw [← List.drop_drop, List.drop_left]
    rfl
  rw [callArguments?, hdrop, uptoClosing_append (bracketed_listed args), uptoClosing_last,
    Option.map_some, List.append_nil]

/-- The arguments of a call are found as they were written, whatever is called, however many arguments
there are, whatever blanks stand around them and whatever follows the call: the text between the
parentheses is found from the place behind the first one on, and it is taken apart into the arguments,
without the blanks around them. -/
theorem arguments_found (f : List Char) (args : List Argument) (trailing : List Char) :
    argumentsFrom? (f ++ '(' :: (listed args ++ ')' :: trailing)) ((f.length + 1 : Nat) : Int) =
        some (some (listed args)) ∧
      splitArguments (listed args) = args.map Argument.text := by
  rw [argumentsFrom?_natCast, callArguments?_listed]
  exact ⟨rfl, splitArguments_listed args⟩

/-- A quoted text with a comma and a parenthesis in it, and blanks around it. -/
def quotedArgument : Argument where
  before := [' ']
  text := "\"a, (b\"".toList
  behind := ['\t', ' ']
  bracketed := show Bracketed false ('"' :: ("a, (b".toList ++ '"' :: [])) from
    .quoted (.inl rfl) (by decide) .nil
  ne_nil := by decide
  trimmed := by decide

/-- A call whose arguments are a list and a quoted text with the other quote in it. -/
def nestedArgument : Argument where
  text := "g([1, 2], 'it\"s')".toList
  bracketed := by
    have hlist : Bracketed true "1, 2".toList :=
      .ordinary (by decide) (.comma (.ordinary (by decide) (.ordinary (by decide) .nil)))
    have hquoted : Bracketed true ('\'' :: ("it\"s".toList ++ '\'' :: [])) :=
      .quoted (.inr rfl) (by decide) .nil
    have hinner : Bracketed true ('[' :: ("1, 2".toList ++ ']' :: ',' :: ' ' :: '\'' ::
        ("it\"s".toList ++ '\'' :: []))) :=
      .group (by decide) hlist (.comma (.ordinary (by decide) hquoted))
    exact .ordinary (by decide) (.group (r := ')') (s := []) (by decide) hinner .nil)
  ne_nil := by decide
  trimmed := by decide

/-- In what follows the call, a parenthesis is left open. -/
theorem arguments_found_nested :
    argumentsFrom? "f( \"a, (b\"\t ,g([1, 2], 'it\"s')) + h(".toList 2 =
        some (some " \"a, (b\"\t ,g([1, 2], 'it\"s')".toList) ∧
      splitArguments " \"a, (b\"\t ,g([1, 2], 'it\"s')".toList =
        ["\"a, (b\"".toList, "g([1, 2], 'it\"s')".toList] :=
  arguments_found "f".toList [quotedArgument, nestedArgument] " + h(".toList

end Birokrasi.Extended
