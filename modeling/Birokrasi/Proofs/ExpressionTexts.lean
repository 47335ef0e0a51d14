import Birokrasi.Proofs.CoreLanguage
import Birokrasi.Proofs.ExpressionTrees

/-!
# How expressions are written and compiled

Expressions of integers and names, with each operator between two blanks. The compiler has no grammar of
them: it cuts their texts. What it emits is the code of `Chain.reading` (`compileExpr_reading`), unless an
underscore makes the whole text a name (`compileExpr_underscored`). Operands that it knows no instruction
for are left out without a word (`Operand.silent`).
-/

namespace Birokrasi.Calculation

open Birokrasi.Bytecode
open Birokrasi.Structured (toNat_of_isAlpha isQuotedText isQuotedText_eq_false
  compileExpr_of_numeral compileExpr_of_variable compileExpr_of_operator compileExpr_of_nothing
  readInt_eq_none readInt_eq_none_of_mem_trim not_isBlank_of_isAlpha decimalDigit?_of_isAlpha
  not_charIsDigit_of_isAlpha)
open Birokrasi.Text

/-! ## Texts -/

/-- Digits. -/
def isNumber (s : List Char) : Bool := !s.isEmpty && s.all Char.isDigit

/-- A letter, and letters, digits and underscores after it. -/
def isIdentifier (s : List Char) : Bool :=
  s.head?.any Char.isAlpha && s.all fun c => c.isAlphanum || c == '_'

inductive Operand where
  | literal (digits : List Char) (h : isNumber digits)
  | name (s : List Char) (h : isIdentifier s)

def Operand.text : Operand → List Char
  | literal digits _ => digits
  | name s _ => s

namespace Operator

/-- The character of an operator. -/
def mark : Operator → Char
  | add => '+'
  | sub => '-'
  | mul => '*'
  | div => '/'
  | eq => '='
  | lt => '<'
  | gt => '>'

def sign : Operator → List Char
  | eq => ['=', '=']
  | o => [o.mark]

def opcode : Operator → Opcode
  | add => .add
  | sub => .sub
  | mul => .mul
  | div => .div
  | eq => .eq
  | lt => .lt
  | gt => .gt

def all : List Operator := [add, sub, mul, div, eq, lt, gt]

theorem operators_eq : operators = all.map fun o => (o.sign, o.opcode) := rfl

theorem mark_inj {o p : Operator} (h : o.mark = p.mark) : o = p := by
  revert h
  cases o <;> cases p <;> decide

theorem eq_mark_of_mem_sign {o : Operator} {c : Char} (h : c ∈ o.sign) : c = o.mark := by
  cases o <;> simpa [sign, mark] using h

theorem mark_mem_sign (o : Operator) : o.mark ∈ o.sign := by
  cases o <;> decide

theorem exists_sign_eq (o : Operator) : ∃ tail, o.sign = o.mark :: tail := by
  cases o <;> exact ⟨_, rfl⟩

/-- The operators before one of them in their order. -/
theorem all_eq (o : Operator) : all = all.take o.rank ++ o :: all.drop (o.rank + 1) := by
  cases o <;> rfl

theorem rank_lt_of_mem_take {o p : Operator} (h : p ∈ all.take o.rank) : p.rank < o.rank := by
  revert h
  cases o <;> cases p <;> decide

end Operator

namespace Chain

/-- An expression as it is written, with a blank on both sides of each operator. -/
def text (c : Chain Operand) : List Char :=
  c.first.text ++ c.rest.flatMap fun s => ' ' :: s.1.sign ++ ' ' :: s.2.text

/-- Whether there is an underscore in an expression. -/
def underscored (c : Chain Operand) : Bool := c.operands.any (·.text.contains '_')

end Chain

variable {x : Operand} {o : Operator} {c l r : Chain Operand} {d : Char} {s text : List Char}

theorem text_join : (l.join o r).text = (l.text ++ [' ']) ++ o.sign ++ (' ' :: r.text) := by
  simp [Chain.text, Chain.join]

theorem underscored_join : (l.join o r).underscored = (l.underscored || r.underscored) := by
  simp [Chain.underscored]

/-! ## Characters of expressions -/

/-- The characters of operands. -/
def isPart (c : Char) : Bool := c.isAlphanum || c == '_'

theorem toNat_of_isDigit (h : d.isDigit) : 48 ≤ d.toNat ∧ d.toNat ≤ 57 := by
  simp only [Char.isDigit, Bool.and_eq_true, decide_eq_true_eq, UInt32.le_iff_toNat_le,
    ge_iff_le] at h
  exact h

theorem toNat_of_isPart (h : isPart d) : 48 ≤ d.toNat ∧ d.toNat ≤ 57 ∨ 65 ≤ d.toNat ∧ d.toNat ≤ 90 ∨
    d.toNat = 95 ∨ 97 ≤ d.toNat ∧ d.toNat ≤ 122 := by
  simp only [isPart, Char.isAlphanum, Bool.or_eq_true, beq_iff_eq] at h
  rcases h with (halpha | hdigit) | rfl
  · have hn := toNat_of_isAlpha halpha
    omega
  · exact .inl (toNat_of_isDigit hdigit)
  · exact .inr (.inr (.inl rfl))

theorem not_isBlank_of_isPart (h : isPart d) : isBlank d = false := by
  have hn := toNat_of_isPart h
  simp only [isBlank, Bool.or_eq_false_iff, Bool.and_eq_false_iff, decide_eq_false_iff_not,
    beq_eq_false_iff_ne]
  omega

theorem isPart_of_mem_text (h : d ∈ x.text) : isPart d := by
  cases x with
  | literal digits hd =>
    simp only [isNumber, Bool.and_eq_true, List.all_eq_true] at hd
    simp [isPart, Char.isAlphanum, hd.2 d h]
  | name s hs =>
    simp only [isIdentifier, Bool.and_eq_true, List.all_eq_true] at hs
    exact hs.2 d h

theorem text_ne_nil (x : Operand) : x.text ≠ [] := by
  rintro hnil
  cases x with
  | literal digits hd =>
    obtain rfl : digits = [] := hnil
    cases hd
  | name s hs =>
    obtain rfl : s = [] := hnil
    cases hs

/-- A character of an expression belongs to an operand, is a blank, or belongs to an operator. -/
theorem mem_text (h : d ∈ c.text) :
    (∃ x ∈ c.operands, d ∈ x.text) ∨ d = ' ' ∨ ∃ o ∈ c.ops, d = o.mark := by
  rw [Chain.text, List.mem_append, List.mem_flatMap] at h
  rcases h with h | ⟨s, hs, h⟩
  · exact .inl ⟨c.first, List.mem_cons_self, h⟩
  · simp only [List.cons_append, List.mem_cons, List.mem_append] at h
    rcases h with h | h | h | h
    · exact .inr (.inl h)
    · exact .inr (.inr ⟨s.1, List.mem_map_of_mem hs, Operator.eq_mark_of_mem_sign h⟩)
    · exact .inr (.inl h)
    · exact .inl ⟨s.2, List.mem_cons_of_mem _ (List.mem_map_of_mem hs), h⟩

theorem Operator.not_isPart_mark (o : Operator) : isPart o.mark = false := by
  cases o <;> decide

theorem Operator.mark_ne_blank (o : Operator) : o.mark ≠ ' ' := by
  cases o <;> decide

theorem mark_not_mem_text (h : o ∉ c.ops) : o.mark ∉ c.text := by
  intro hmem
  rcases mem_text hmem with ⟨x, -, hx⟩ | hblank | ⟨p, hp, hmark⟩
  · exact absurd (isPart_of_mem_text hx) (by simp [o.not_isPart_mark])
  · exact o.mark_ne_blank hblank
  · exact h (Operator.mark_inj hmark ▸ hp)

/-- A character that no expression holds. -/
theorem not_mem_text (hpart : isPart d = false) (hblank : d ≠ ' ') (hmark : ∀ o : Operator, d ≠ o.mark) :
    d ∉ c.text := by
  intro hmem
  rcases mem_text hmem with ⟨x, -, hx⟩ | h | ⟨o, -, ho⟩
  · simp [isPart_of_mem_text hx] at hpart
  · exact hblank h
  · exact hmark o ho

theorem mem_text_of_mem_operand (hx : x ∈ c.operands) (hd : d ∈ x.text) : d ∈ c.text := by
  rw [Chain.text, List.mem_append, List.mem_flatMap]
  rcases List.mem_cons.1 hx with rfl | hx
  · exact .inl hd
  · obtain ⟨s, hs, rfl⟩ := List.mem_map.1 hx
    exact .inr ⟨s, hs, by simp [hd]⟩

/-! ## Blanks -/

theorem head?_text (c : Chain Operand) : ∃ d, c.text.head? = some d ∧ isPart d := by
  obtain ⟨d, s, hs⟩ := List.exists_cons_of_ne_nil (text_ne_nil c.first)
  refine ⟨d, by simp [Chain.text, hs], ?_⟩
  exact isPart_of_mem_text (x := c.first) (by simp [hs])

theorem getLast?_text (c : Chain Operand) : ∃ d, c.text.getLast? = some d ∧ isPart d := by
  have hlast (x : Operand) : ∃ d, x.text.getLast? = some d ∧ isPart d := by
    refine ⟨_, List.getLast?_eq_some_getLast (text_ne_nil x), ?_⟩
    exact isPart_of_mem_text (List.getLast_mem _)
  rcases List.eq_nil_or_concat c.rest with hrest | ⟨rest, s, hrest⟩
  · obtain ⟨d, hd, hpart⟩ := hlast c.first
    exact ⟨d, by simp [Chain.text, hrest, hd], hpart⟩
  · obtain ⟨d, hd, hpart⟩ := hlast s.2
    have htext : ∃ front, c.text = front ++ s.2.text :=
      ⟨c.first.text ++ (rest.flatMap fun s => ' ' :: s.1.sign ++ ' ' :: s.2.text) ++
        (' ' :: s.1.sign ++ [' ']), by rw [Chain.text, hrest]; simp⟩
    obtain ⟨front, hfront⟩ := htext
    refine ⟨d, ?_, hpart⟩
    rw [hfront, List.getLast?_append, hd]
    rfl

theorem trim_text (c : Chain Operand) : trim c.text = c.text := by
  obtain ⟨d, hd, hpart⟩ := head?_text c
  obtain ⟨e, he, hpart'⟩ := getLast?_text c
  rw [trim_eq_self_iff, hd, he]
  exact ⟨not_isBlank_of_isPart hpart, not_isBlank_of_isPart hpart'⟩

theorem trim_text_append (c : Chain Operand) : trim (c.text ++ [' ']) = c.text := by
  obtain ⟨d, hd, hpart⟩ := head?_text c
  have hstart : trimStart (c.text ++ [' ']) = c.text ++ [' '] := by
    refine trimStart_eq_self ?_
    rw [List.head?_append, hd]
    exact not_isBlank_of_isPart hpart
  have hend : trimEnd (c.text ++ [' ']) = trimEnd c.text := by
    have hblank : isBlank ' ' = true := by decide
    simp [trimEnd, hblank]
  have hself : trimStart c.text = c.text := by
    refine trimStart_eq_self ?_
    rw [hd]
    exact not_isBlank_of_isPart hpart
  rw [trim, hstart, hend]
  have htrim := trim_text c
  rwa [trim, hself] at htrim

theorem trim_text_cons (c : Chain Operand) : trim (' ' :: c.text) = c.text := by
  have hblank : isBlank ' ' = true := by decide
  have hstart : trimStart (' ' :: c.text) = trimStart c.text := by
    simp [trimStart, hblank]
  rw [trim, hstart, ← trim, trim_text]

/-! ## Operands -/

/-- Whether the compiler leaves an operand out: a literal with more digits than are read, or a name with
a digit and no underscore. -/
def Operand.silent : Operand → Bool
  | literal digits _ => decide (Decimal.digitLimit < digits.length)
  | name s _ => !(s.all Char.isAlpha || s.contains '_')

/-- The instructions of an operand. -/
def Operand.code (x : Operand) : Emit (List Instr) :=
  if x.silent then return []
  else
    match x with
    | literal digits _ => do emit .push (← constantId (.int (Decimal.digitsValue digits)))
    | name s _ => do emit .load (← slotOf (String.ofList s))

theorem isLetter_of_isPart (h : isPart d) : isLetter d = d.isAlpha := by
  have hn := toNat_of_isPart h
  rw [isLetter, if_pos (by omega)]

theorem decimalDigit?_of_isDigit (h : d.isDigit) : decimalDigit? d = some (d.toNat - 48) := by
  have hn := toNat_of_isDigit h
  rw [decimalDigit?, if_pos (by omega), if_pos h]

theorem digitsFrom_of_digits {inside : Bool} {ds : List Char} (h : ∀ c ∈ ds, c.isDigit) :
    Decimal.digitsFrom inside ds = (ds, []) := by
  induction ds generalizing inside with
  | nil => rfl
  | cons c ds ih =>
    rw [Decimal.digitsFrom, if_pos (h c List.mem_cons_self),
      ih fun e he => h e (List.mem_cons_of_mem _ he)]

theorem plainNumeral_of_digits {ds : List Char} (h : ∀ c ∈ ds, c.isDigit) :
    Decimal.plainNumeral ds = ds := by
  have hpart : ∀ c ∈ ds, isPart c := fun c hc => by simp [isPart, Char.isAlphanum, h c hc]
  unfold Decimal.plainNumeral
  rw [trim_eq_self fun c hc => not_isBlank_of_isPart (hpart c hc)]
  refine (List.map_congr_left fun c hc => ?_).trans (List.map_id ds)
  rw [decimalDigit?_of_isDigit (h c hc)]
  have hn := toNat_of_isDigit (h c hc)
  show Char.ofNat (48 + (c.toNat - 48)) = c
  rw [show 48 + (c.toNat - 48) = c.toNat by omega, Char.ofNat_toNat]

/-- A literal is the integer of its digits, if there are not too many. -/
theorem readInt_of_isNumber {ds : List Char} (h : isNumber ds) :
    Decimal.readInt ds = if Decimal.digitLimit < ds.length then .error (.tooLong ds.length)
      else .ok (Decimal.digitsValue ds) := by
  simp only [isNumber, Bool.and_eq_true, List.all_eq_true] at h
  obtain ⟨hne, hdigits⟩ := h
  cases ds with
  | nil => cases hne
  | cons e ds =>
    have he := hdigits e List.mem_cons_self
    have hsign : Decimal.takeSign (e :: ds) = (false, e :: ds) := by
      rw [Decimal.takeSign.eq_def]
      split
      next heq =>
        cases heq
        cases he
      next heq =>
        cases heq
        cases he
      · rfl
    unfold Decimal.readInt
    rw [plainNumeral_of_digits hdigits, hsign]
    simp only [Decimal.takeDigits, digitsFrom_of_digits hdigits]
    rfl

/-! ## What the compiler makes of a text -/

theorem isQuotedText_text (c : Chain Operand) : isQuotedText c.text = false := by
  refine isQuotedText_eq_false ?_ ?_
  · exact not_mem_text (by decide) (by decide) (by intro o; cases o <;> decide)
  · exact not_mem_text (by decide) (by decide) (by intro o; cases o <;> decide)

theorem numeral?_text (c : Chain Operand) :
    numeral? c.text = (Decimal.readInt c.text).toOption.map .int :=
  numeral?_of_no_point (not_mem_text (by decide) (by decide) (by intro o; cases o <;> decide))

theorem cut?_text (h : o ∉ c.ops) : cut? o.sign c.text = none :=
  cut?_eq_none o.mark_mem_sign (mark_not_mem_text h)

theorem operator?_eq_none (h : c.ops = []) : operator? c.text = none := by
  rw [operator?, Operator.operators_eq, List.findSome?_map, List.findSome?_eq_none_iff]
  intro o _
  have hcut : cut? o.sign c.text = none := cut?_text (by simp [h])
  simp [hcut]

/-- The text is cut at the first of the operators that come first in their order. -/
theorem operator?_join (hl : ∀ p ∈ l.ops, o.rank < p.rank) (hr : ∀ q ∈ r.ops, o.rank ≤ q.rank) :
    operator? (l.join o r).text = some (o.opcode, l.text ++ [' '], ' ' :: r.text) := by
  have hnone : ∀ p ∈ Operator.all.take o.rank, cut? p.sign (l.join o r).text = none := by
    intro p hp
    have hlt := Operator.rank_lt_of_mem_take hp
    refine cut?_text ?_
    rw [Chain.ops_join, List.mem_append, List.mem_cons]
    rintro (hmem | rfl | hmem)
    · have hlow := hl p hmem
      omega
    · omega
    · have hlow := hr p hmem
      omega
  have hsome : cut? o.sign (l.join o r).text = some (l.text ++ [' '], ' ' :: r.text) := by
    have hleft : o.mark ∉ l.text ++ [' '] := by
      rw [List.mem_append, List.mem_singleton]
      rintro (hmem | hblank)
      · exact mark_not_mem_text (fun h => Nat.lt_irrefl _ (hl o h)) hmem
      · exact o.mark_ne_blank hblank
    obtain ⟨tail, hsign⟩ := o.exists_sign_eq
    rw [text_join, hsign]
    exact cut?_append hleft
  rw [operator?, Operator.operators_eq, List.findSome?_map, Operator.all_eq o,
    List.findSome?_append, List.findSome?_eq_none_iff.2, Option.none_or, List.findSome?_cons]
  · simp [hsome]
  · intro p hp
    simp [hnone p hp]

theorem isVariable_text (x : Operand) :
    isVariable x.text = (x.text.all Char.isAlpha || x.text.contains '_') := by
  have hempty : x.text.isEmpty = false := List.isEmpty_eq_false_iff.2 (text_ne_nil x)
  have hletters : x.text.all isLetter = x.text.all Char.isAlpha := by
    rw [Bool.eq_iff_iff, List.all_eq_true, List.all_eq_true]
    constructor
    · intro h c hc
      rw [← isLetter_of_isPart (isPart_of_mem_text hc)]
      exact h c hc
    · intro h c hc
      rw [isLetter_of_isPart (isPart_of_mem_text hc)]
      exact h c hc
  rw [isVariable, hempty, hletters]
  rfl

theorem not_isAlpha_of_isDigit (h : d.isDigit) : d.isAlpha = false := by
  refine Bool.eq_false_iff.2 fun ha => ?_
  have hdigit := toNat_of_isDigit h
  have halpha := toNat_of_isAlpha ha
  omega

theorem isVariable_of_isNumber {ds : List Char} (h : isNumber ds) : isVariable ds = false := by
  refine (isVariable_text (.literal ds h)).trans ?_
  show (ds.all Char.isAlpha || ds.contains '_') = false
  simp only [isNumber, Bool.and_eq_true, List.all_eq_true] at h
  obtain ⟨hne, hdigits⟩ := h
  cases ds with
  | nil => cases hne
  | cons e ds =>
    have hline : '_' ∉ e :: ds := fun hmem => by cases hdigits _ hmem
    simp [not_isAlpha_of_isDigit (hdigits e List.mem_cons_self), hline]

theorem readInt_of_isIdentifier (h : isIdentifier s) : (Decimal.readInt s).toOption = none := by
  rw [isIdentifier, Bool.and_eq_true] at h
  cases s with
  | nil => cases h.1
  | cons c s =>
    have hc : c.isAlpha := h.1
    have hn := toNat_of_isAlpha hc
    refine readInt_eq_none List.mem_cons_self (not_isBlank_of_isAlpha hc) (decimalDigit?_of_isAlpha hc)
      (not_charIsDigit_of_isAlpha hc) ?_
    intro hmem
    simp only [List.mem_cons, List.not_mem_nil, or_false] at hmem
    rcases hmem with rfl | rfl | rfl
    · cases hc
    · cases hc
    · cases hc

theorem compileExpr_operand (ht : trim text = x.text) : compileExpr text = x.code := by
  have hchain : (Chain.mk x []).text = x.text := by simp [Chain.text]
  have hquoted : isQuotedText (trim text) = false := by
    rw [ht, ← hchain]
    exact isQuotedText_text _
  have hop : operator? (trim text) = none := by
    rw [ht, ← hchain]
    exact operator?_eq_none rfl
  have hnumeral : numeral? (trim text) = (Decimal.readInt x.text).toOption.map .int := by
    rw [ht, ← hchain]
    exact numeral?_text _
  cases x with
  | literal digits hd =>
    rw [show (Operand.literal digits hd).text = digits from rfl, readInt_of_isNumber hd] at hnumeral
    by_cases hlong : Decimal.digitLimit < digits.length
    · rw [if_pos hlong] at hnumeral
      have hvariable : isVariable (trim text) = false := by
        rw [ht]
        exact isVariable_of_isNumber hd
      rw [compileExpr_of_nothing hquoted hnumeral hvariable hop, Operand.code, Operand.silent,
        decide_eq_true hlong, if_pos rfl]
    · rw [if_neg hlong] at hnumeral
      rw [compileExpr_of_numeral hquoted hnumeral, Operand.code, Operand.silent,
        decide_eq_false hlong, if_neg Bool.false_ne_true]
  | name s hs =>
    have hvariable : isVariable (trim text) = (s.all Char.isAlpha || s.contains '_') := by
      rw [ht]
      exact isVariable_text _
    have hnone : numeral? (trim text) = none := by
      rw [hnumeral, show (Operand.name s hs).text = s from rfl, readInt_of_isIdentifier hs]
      rfl
    by_cases hvar : (s.all Char.isAlpha || s.contains '_') = true
    · rw [hvar] at hvariable
      rw [compileExpr_of_variable hquoted hnone hvariable, Operand.code, Operand.silent, hvar,
        if_neg (by decide), ht]
      rfl
    · rw [Bool.not_eq_true] at hvar
      rw [hvar] at hvariable
      rw [compileExpr_of_nothing hquoted hnone hvariable hop, Operand.code, Operand.silent, hvar,
        if_pos (by decide)]

/-! ## What the compiler makes of an expression -/

/-- The instructions of a tree, an operator after its sides. -/
def Tree.code : Tree Operand → Emit (List Instr)
  | leaf x => x.code
  | node o l r => do
    let first ← l.code
    let second ← r.code
    let last ← emit o.opcode
    return first ++ second ++ last

theorem contains_text (c : Chain Operand) : c.text.contains '_' = c.underscored := by
  rw [Bool.eq_iff_iff, List.contains_iff_mem, Chain.underscored, List.any_eq_true]
  constructor
  · intro hmem
    rcases mem_text hmem with ⟨x, hx, hline⟩ | hblank | ⟨o, -, hmark⟩
    · exact ⟨x, hx, List.contains_iff_mem.2 hline⟩
    · cases hblank
    · exact absurd o.not_isPart_mark (by rw [← hmark]; decide)
  · rintro ⟨x, hx, hline⟩
    exact mem_text_of_mem_operand hx (List.contains_iff_mem.1 hline)

section Joined

variable (ht : trim text = (l.join o r).text)

include ht

theorem numeral?_join : numeral? (trim text) = none := by
  have hblank : ' ' ∈ trim (l.join o r).text := by
    rw [trim_text, text_join]
    simp
  rw [ht, numeral?_text,
    readInt_eq_none_of_mem_trim hblank (by decide) (by decide) (by decide)]
  rfl

theorem isVariable_join : isVariable (trim text) = (l.join o r).underscored := by
  have hblank : ' ' ∈ (l.join o r).text := by
    rw [text_join]
    simp
  have hletters : (l.join o r).text.all isLetter = false := by
    rw [List.all_eq_false]
    exact ⟨' ', hblank, by decide⟩
  rw [ht, isVariable, hletters, contains_text, Bool.and_false, Bool.false_or]

/-- An underscore makes the whole text a name. -/
theorem compileExpr_underscored (h : (l.join o r).underscored = true) :
    compileExpr text = (do emit .load (← slotOf (String.ofList (l.join o r).text))) := by
  have hquoted : isQuotedText (trim text) = false := by
    rw [ht]
    exact isQuotedText_text _
  have hvariable := isVariable_join ht
  rw [h] at hvariable
  rw [compileExpr_of_variable hquoted (numeral?_join ht) hvariable, ht]

theorem compileExpr_join (h : (l.join o r).underscored = false) (hl : ∀ p ∈ l.ops, o.rank < p.rank)
    (hr : ∀ q ∈ r.ops, o.rank ≤ q.rank) :
    compileExpr text = (do
      let first ← compileExpr (l.text ++ [' '])
      let second ← compileExpr (' ' :: r.text)
      let last ← emit o.opcode
      return first ++ second ++ last) := by
  have hquoted : isQuotedText (trim text) = false := by
    rw [ht]
    exact isQuotedText_text _
  have hvariable := isVariable_join ht
  rw [h] at hvariable
  refine compileExpr_of_operator hquoted (numeral?_join ht) hvariable ?_
  rw [ht]
  exact operator?_join hl hr

end Joined

/-- Without an underscore the compiler cuts an expression as `Chain.reading` does. -/
theorem compileExpr_reading (h : c.ops = [] ∨ c.underscored = false) (ht : trim text = c.text) :
    compileExpr text = c.reading.code := by
  induction hops : c.ops using cut_induction generalizing c text with
  | nil =>
    obtain ⟨x, rest⟩ := c
    obtain rfl : rest = [] := Chain.rest_eq_nil hops
    exact compileExpr_operand (by rw [ht]; simp [Chain.text])
  | cut as o bs has hbs ihl ihr =>
    obtain ⟨l, r, rfl, rfl, rfl⟩ := Chain.exists_join hops
    have hnone : (l.join o r).underscored = false := h.resolve_left (by simp)
    have hsides := hnone
    rw [underscored_join, Bool.or_eq_false_iff] at hsides
    rw [compileExpr_join ht hnone has hbs, reading_join has hbs,
      ihl (.inr hsides.1) (trim_text_append l) rfl, ihr (.inr hsides.2) (trim_text_cons r) rfl]
    rfl

end Birokrasi.Calculation
