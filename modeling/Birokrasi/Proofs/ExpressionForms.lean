import Birokrasi.Proofs.CoreLanguage
import Birokrasi.Proofs.TreeExecution
import Birokrasi.Proofs.CallFree
import Birokrasi.Proofs.WrittenPrograms

/-!
# What an expression is not taken for

An expression is taken for the first form that it looks like, so a form counts only if none of those
before it does. A text is none of them because of single characters: those at its ends, and those inside
that no number and no name holds. What is left is cut at an operator (`evaluate_of_operation`), the first
one in the order in which they are looked for (`operation?_of_first`). Names and integers are `Solid`: no
operator up to a sum is found in them (`cut?_blank_solid`).
-/

namespace Birokrasi.Extended

open Birokrasi.Text
open Birokrasi.Structured (digits_of_digitsFrom mem_takeSign readInt_eq_none_of_mem_trim)

variable {c : Char} {s e left right : List Char} {op : Operator} {call : Caller}

/-! ## Numbers -/

/-- Whether a character may stand in a number. -/
def inNumbers (c : Char) : Bool :=
  (decimalDigit? c).isSome || c.isAlphanum || ['_', '-', '+', '.'].contains c

theorem of_inNumbers_eq_false (h : inNumbers c = false) :
    decimalDigit? c = none ∧ c.isAlpha = false ∧ c.isDigit = false ∧ c ∉ ['_', '-', '+', '.'] := by
  simp only [inNumbers, Char.isAlphanum, Bool.or_eq_false_iff, Option.isSome_eq_false_iff,
    Option.isNone_iff_eq_none] at h
  obtain ⟨⟨hdigit, halpha, hascii⟩, hmarks⟩ := h
  exact ⟨hdigit, halpha, hascii, by simpa using hmarks⟩

theorem mem_digitsFrom {inside : Bool} (h : c ∈ s) (hc : inNumbers c = false) :
    c ∈ (Decimal.digitsFrom inside s).2 := by
  obtain ⟨-, -, hdigit, hmarks⟩ := of_inNumbers_eq_false hc
  induction s generalizing inside with
  | nil => cases h
  | cons x s ih =>
    rw [Decimal.digitsFrom]
    split
    next hx =>
      have hne : c ≠ x := fun heq => by simp [heq ▸ hdigit] at hx
      exact ih ((List.mem_cons.1 h).resolve_left hne)
    next =>
      split
      next hx =>
        have hne : c ≠ x := fun heq => by simp_all
        exact ih ((List.mem_cons.1 h).resolve_left hne)
      next => exact h

theorem readExponent?_eq_none (h : c ∈ s) (hc : inNumbers c = false) :
    Decimal.readExponent? s = none := by
  obtain ⟨-, halpha, -, hmarks⟩ := of_inNumbers_eq_false hc
  simp only [List.mem_cons, List.not_mem_nil, or_false, not_or] at hmarks
  cases s with
  | nil => cases h
  | cons x s =>
    rw [Decimal.readExponent?]
    split
    next hx =>
      have hne : c ≠ x := by
        rintro rfl
        rcases Bool.or_eq_true_iff.1 hx with he | he
        all_goals
          rw [of_decide_eq_true he] at halpha
          cases halpha
      have hmem : c ∈ (Decimal.takeDigits (Decimal.takeSign s).2).2 :=
        mem_digitsFrom (mem_takeSign ((List.mem_cons.1 h).resolve_left hne) hmarks.2.1 hmarks.2.2.1) hc
      dsimp only
      split
      next hds =>
        rw [hds] at hmem
        cases hmem
      next => rfl
    next => rfl

theorem toLower_of_not_isAlpha (h : c.isAlpha = false) : c.toLower = c := by
  have hupper : c.isUpper = false := (Bool.or_eq_false_iff.1 h).1
  exact dif_neg (of_decide_eq_false hupper)

theorem readFloat?_eq_none (h : c ∈ trim s) (hc : inNumbers c = false) :
    Decimal.readFloat? s = none := by
  obtain ⟨hdecimal, halpha, -, hmarks⟩ := of_inNumbers_eq_false hc
  simp only [List.mem_cons, List.not_mem_nil, or_false, not_or] at hmarks
  have hplain : c ∈ Decimal.plainNumeral s := List.mem_map.2 ⟨c, h, by simp [hdecimal]⟩
  have hsign : c ∈ (Decimal.takeSign (Decimal.plainNumeral s)).2 :=
    mem_takeSign hplain hmarks.2.1 hmarks.2.2.1
  have hword : ∀ w : String, w.toList.all Char.isAlpha = true →
      String.ofList ((Decimal.takeSign (Decimal.plainNumeral s)).2.map Char.toLower) ≠ w := by
    rintro w hw rfl
    rw [String.toList_ofList, List.all_eq_true] at hw
    have hlower := hw _ (List.mem_map_of_mem hsign)
    rw [toLower_of_not_isAlpha halpha, halpha] at hlower
    cases hlower
  have hwhole : c ∈ (Decimal.takeDigits (Decimal.takeSign (Decimal.plainNumeral s)).2).2 :=
    mem_digitsFrom hsign hc
  rw [Decimal.readFloat?]
  simp only [hword "inf" (by decide), hword "infinity" (by decide), hword "nan" (by decide),
    decide_false, Bool.or_self, Bool.false_eq_true, if_false]
  -- A point may stand between the digits: the character is behind it, or else there is none.
  split
  next rest hpoint =>
    rw [hpoint] at hwhole
    have hpart : c ∈ (Decimal.takeDigits rest).2 :=
      mem_digitsFrom ((List.mem_cons.1 hwhole).resolve_left hmarks.2.2.2) hc
    rw [readExponent?_eq_none hpart hc, Option.map_none, ite_self]
  next => rw [readExponent?_eq_none hwhole hc, Option.map_none, ite_self]

/-- A text that holds a character of no number is no number. -/
theorem number?_eq_none (h : c ∈ trim e) (hc : inNumbers c = false) : number? e = none := by
  obtain ⟨hdecimal, -, hdigit, hmarks⟩ := of_inNumbers_eq_false hc
  rw [number?]
  split
  · rw [readFloat?_eq_none h hc]
    rfl
  · rw [readInt_eq_none_of_mem_trim h hdecimal hdigit (by simp_all)]
    rfl

/-! ## Names and words -/

theorem isWord_of_isName (h : isName e = true) : ∀ c ∈ e, isWord c = true := by
  cases e with
  | nil => nofun
  | cons d rest =>
    rw [isName, Bool.and_eq_true] at h
    obtain ⟨hd, hrest⟩ := h
    intro c hc
    rcases List.mem_cons.1 hc with rfl | hc
    · rcases Bool.or_eq_true_iff.1 hd with halpha | hline
      · exact Structured.isWord_of_isAlpha halpha
      · rw [of_decide_eq_true hline]
        decide +kernel
    · exact List.all_eq_true.1 hrest c hc

theorem isName_eq_false (h : c ∈ e) (hc : isWord c = false) : isName e = false := by
  rw [Bool.eq_false_iff]
  intro hname
  rw [isWord_of_isName hname c h] at hc
  cases hc

/-- Digits of ASCII, after a minus sign or not. -/
def isInteger (s : List Char) : Bool :=
  let digits := if s.head? = some '-' then s.tail else s
  !digits.isEmpty && digits.all Char.isDigit

theorem isWord_of_isDigit (hc : c.isDigit = true) : isWord c = true := by
  have hn : c.toNat < 0x80 := by
    simp only [Char.isDigit, Bool.and_eq_true, decide_eq_true_eq, UInt32.le_iff_toNat_le] at hc
    have hle : c.toNat ≤ 57 := hc.2
    omega
  rw [isWord, if_pos hn, Char.isAlphanum, hc, Bool.or_true, Bool.true_or]

/-- A text of characters of words and of minus signs, as names and integers are. -/
def Solid (s : List Char) : Prop := ∀ c ∈ s, isWord c = true ∨ c = '-'

theorem solid_of_isName (h : isName s = true) : Solid s := fun c hc => .inl (isWord_of_isName h c hc)

theorem solid_of_isInteger (h : isInteger s = true) : Solid s := by
  intro c hc
  rw [isInteger, Bool.and_eq_true] at h
  obtain ⟨-, hdigits⟩ := h
  split at hdigits
  next hminus =>
    cases s with
    | nil => cases hc
    | cons d s =>
      rcases List.mem_cons.1 hc with rfl | hc
      · exact .inr (Option.some.inj hminus)
      · exact .inl (isWord_of_isDigit (List.all_eq_true.1 hdigits c hc))
  next => exact .inl (isWord_of_isDigit (List.all_eq_true.1 hdigits c hc))

namespace Solid

theorem not_mem (hs : Solid s) (hc : isWord c = false) (hminus : c ≠ '-') : c ∉ s := by
  intro hmem
  rcases hs c hmem with hword | hc
  · rw [hword] at hc
    cases hc
  · exact hminus hc

/-- None of some characters is in a solid text. -/
theorem not_mem_of_all {cs : List Char} (hs : Solid s)
    (hcs : cs.all (fun c => !isWord c && c != '-') = true) : ∀ c ∈ cs, c ∉ s := by
  intro c hc
  have hout := List.all_eq_true.1 hcs c hc
  simp only [Bool.and_eq_true, Bool.not_eq_true', bne_iff_ne] at hout
  exact hs.not_mem hout.1 hout.2

theorem trim_eq (hs : Solid s) : trim s = s := by
  refine trim_eq_self fun c hc => ?_
  rcases hs c hc with hword | rfl
  · exact isBlank_eq_false_of_isWord hword
  · decide

end Solid

/-! ## Literals -/

theorem between?_of_head {first last : Char} (h : s.head? ≠ some first) :
    between? first last s = none := by
  cases s with
  | nil => rfl
  | cons d rest => exact if_neg fun hd => h (congrArg some hd.1)

theorem between?_of_last {first last : Char} (h : s.getLast? ≠ some last) :
    between? first last s = none := by
  cases s with
  | nil => rfl
  | cons d rest => exact if_neg fun hd => h hd.2

theorem between?_of_not_mem {first last : Char} (h : first ∉ s) : between? first last s = none :=
  between?_of_head fun hhead => h (List.mem_of_mem_head? hhead)

/-- A text is no literal if no quotes and no brackets stand around it, and if it is no word. -/
theorem literal?_eq_none (hquote : between? '"' '"' e = none) (hquote' : between? '\'' '\'' e = none)
    (hlist : between? '[' ']' e = none) (hrecord : between? '\x7b' '\x7d' e = none) (h : c ∈ e)
    (hc : isWord c = false) : literal? e = none := by
  have hword : ∀ w : String, w.toList.all isWord = true → e ≠ w.toList := by
    rintro w hw rfl
    rw [List.all_eq_true.1 hw c h] at hc
    cases hc
  rw [literal?, hquote, hquote', hlist, hrecord]
  simp only [hword "benar" (by decide +kernel), hword "salah" (by decide +kernel),
    hword "kosong" (by decide +kernel), if_false]

/-! ## What follows a word -/

theorem word?_eq_none (hc : isWord c = false) : word? (c :: s) = none := by
  have hnot : ¬ isWord c = true := by simp [hc]
  rw [word?, List.takeWhile_cons_of_neg hnot]
  rfl

/-- A text is no call unless a parenthesis follows the word at its front and it ends with one. -/
theorem call?_eq_none (h : e.getLast? = some ')' → ∀ name rest, word? e ≠ some (name, '(' :: rest))
    (known : String → Bool) : call? known e = .ok none := by
  have hhead : callHead? e = none := by
    rw [callHead?]
    split
    next hlast =>
      split
      next name rest hword => exact absurd hword (h hlast name rest)
      next => rfl
    next => rfl
  rw [call?, hhead]

theorem indexed?_of_word (h : ∀ name rest, word? e ≠ some (name, '[' :: rest)) : indexed? e = none := by
  rw [indexed?]
  split
  next name rest hword => exact absurd hword (h name rest)
  next => rfl

theorem indexed?_eq_none (h : '[' ∉ e) : indexed? e = none :=
  indexed?_of_word fun _ _ hword => h (word?_subset hword List.mem_cons_self)

/-! ## Operations -/

theorem operation?_of_first {before after : List Operator} (hall : Operator.all = before ++ op :: after)
    (hbefore : ∀ p ∈ before, cut? p.sign.toList e = none) (hop : op.sides? e = some (left, right)) :
    operation? e = some (op, left, right) := by
  have hnone : ∀ p ∈ before, ((p.sides? e).map fun sides => (p, sides)) = none := by
    intro p hp
    rw [Operator.sides?, hbefore p hp]
    split <;> rfl
  rw [operation?, hall, List.findSome?_append, List.findSome?_eq_none_iff.2 hnone, Option.none_or,
    List.findSome?_cons, hop]
  rfl

/-- The operators that bind weaker than a sum. -/
def Operator.weak : List Operator :=
  [.equal, .notEqual, .lessEq, .greaterEq, .less, .greater, .and, .or]

theorem Operator.all_eq_weak :
    Operator.all = Operator.weak ++ .plus :: [.minus, .times, .«over», .modulo] := rfl

theorem solid_nil : Solid [] := nofun

/-- The signs of these operators and of a sum hold something that is not solid, or two blanks. So they are
not found in a solid text, with a blank at one of its ends or not. -/
theorem cut?_blank_solid {lead tail : List Char} (hop : op ∈ Operator.weak ++ [.plus])
    (hblanks : (lead ++ tail).Sublist [' ']) (hs : Solid s) :
    cut? op.sign.toList (lead ++ s ++ tail) = none := by
  have hsigns : (Operator.weak ++ [Operator.plus]).all (fun op =>
      op.sign.toList.any (fun c => !isWord c && c != '-' && c != ' ') ||
        2 ≤ op.sign.toList.count ' ') = true := by
    decide +kernel
  rcases Bool.or_eq_true_iff.1 (List.all_eq_true.1 hsigns op hop) with hmark | hcount
  · obtain ⟨c, hc, hout⟩ := List.any_eq_true.1 hmark
    simp only [Bool.and_eq_true, Bool.not_eq_true', bne_iff_ne] at hout
    obtain ⟨⟨hword, hminus⟩, hblank⟩ := hout
    refine cut?_eq_none hc fun hmem => ?_
    have hnot : c ∉ lead ++ tail := fun h => hblank (List.mem_singleton.1 (hblanks.subset h))
    have hnot' : c ∉ s := hs.not_mem hword hminus
    simp_all
  · have htwo : 2 ≤ op.sign.toList.count ' ' := of_decide_eq_true hcount
    cases hcut : cut? op.sign.toList (lead ++ s ++ tail) with
    | none => rfl
    | some sides =>
      have heq := congrArg (List.count ' ') (cut?_eq_some hcut)
      have hone : (lead ++ tail).count ' ' ≤ 1 := hblanks.count_le ' '
      have hzero : s.count ' ' = 0 := List.count_eq_zero.2 (hs.not_mem (by decide +kernel) (by decide))
      simp only [List.count_append] at heq hone
      omega

theorem cut?_solid (hop : op ∈ Operator.weak ++ [.plus]) (hs : Solid s) :
    cut? op.sign.toList s = none := by
  have hnone : cut? op.sign.toList ([] ++ s ++ []) = none := cut?_blank_solid hop (List.nil_sublist _) hs
  rwa [List.append_nil] at hnone

theorem cut?_of_operation? (h : operation? e = some (op, left, right)) :
    cut? op.sign.toList e = some (left, right) := by
  obtain ⟨op', -, hop⟩ := List.exists_of_findSome?_eq_some h
  obtain ⟨sides, hsides, heq⟩ := Option.map_eq_some_iff.1 hop
  cases heq
  rw [Operator.sides?] at hsides
  split at hsides
  next => cases hsides
  next => exact hsides

section Operations

variable {text : List Char} (hliteral : literal? (trim text) = none)
  (hcall : ∀ known, call? known (trim text) = .ok none) (hindexed : indexed? (trim text) = none)
  (hmem : c ∈ trim text) (hnumber : inNumbers c = false) (hword : isWord c = false)
include hliteral hcall hindexed hmem hnumber hword

theorem evaluate_eq_operation :
    evaluate call text =
      match operation? (trim text) with
      | some (op, left, right) => do
        let l ← evaluate call left
        let r ← evaluate call right
        op.apply l r
      | none => throw (.cannotEvaluate (String.ofList (trim text))) := by
  have hcompound : compound (trim text) =
      match operation? (trim text) with
      | some (op, left, right) => .operation op left right
      | none => .unreadable := by
    rw [compound, hindexed, number?_eq_none (by rwa [trim_trim]) hnumber, isName_eq_false hmem hword]
    rfl
  rw [evaluate_of_compound hliteral hcall, evaluateCompound, hcompound]
  cases operation? (trim text) <;> rfl

/-- An expression that is nothing else is cut at an operator. -/
theorem evaluate_of_operation (hoperation : operation? (trim text) = some (op, left, right)) :
    evaluate call text = (do
      let l ← evaluate call left
      let r ← evaluate call right
      op.apply l r) := by
  rw [evaluate_eq_operation hliteral hcall hindexed hmem hnumber hword, hoperation]

end Operations

/-- Blanks around an expression do not count. -/
theorem evaluate_blank_cons (call : Caller) (e : List Char) :
    evaluate call (' ' :: e) = evaluate call e := by
  rw [← evaluate_trim, trim_blank_cons, evaluate_trim]

theorem evaluate_append_blank (call : Caller) (e : List Char) :
    evaluate call (e ++ [' ']) = evaluate call e := by
  rw [← evaluate_trim, trim_append_blank, evaluate_trim]

end Birokrasi.Extended
