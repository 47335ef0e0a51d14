import Birokrasi.Proofs.Building
import Birokrasi.Proofs.Outcome
import Birokrasi.Structured.Expression

/-!
# The core of the structured language

The statements and expressions that the interpreter and the compiler read alike: assignments, reports,
branches without another side and meetings, over integers, quoted texts and names. An expression of
the core is given to both as a text. `readable_of_isAtom` and `readable_of_condition` say what both
make of it, as an `Atom` or a `Condition`; an integer too long to be read has no value.
-/

namespace Birokrasi.Structured

open Birokrasi.Text
open Birokrasi.Bytecode (Emit Instr emit emitString constantId slotOf compileExpr)

/-! ## Texts of the core -/

/-- The names that a run gives a value by itself. -/
def predefined : List String := ["anggaran", "progress", "tahun"]

/-- The words that are no names in the core. -/
def reservedWords : List String := ["benar", "salah", "kosong"] ++ predefined

/-- An integer: digits, after a minus sign or not. -/
def isIntegerText (s : List Char) : Bool := allDigits s || (s.head? = some '-' && allDigits s.tail)

/-- A name: letters of ASCII that make up no reserved word. -/
def isNameText (s : List Char) : Bool :=
  !s.isEmpty && s.all Char.isAlpha && !reservedWords.contains (String.ofList s)

/-- A quoted text. -/
def isQuotedText (s : List Char) : Bool := betweenQuotes '"' s || betweenQuotes '\'' s

/-- An expression of the core. -/
def isAtom (text : List Char) : Bool :=
  isIntegerText (trim text) || isQuotedText (trim text) || isNameText (trim text)

/-- A side of a comparison of the core. -/
def isSide (text : List Char) : Bool := allDigits (trim text) || isNameText (trim text)

/-- A condition of the core: an expression, or two sides compared. -/
def IsCondition (text : List Char) : Prop :=
  isAtom text ∨ ∃ l r, trim text = l ++ ['=', '='] ++ r ∧ isSide l ∧ isSide r

/-- The count of a meeting in the core: an integer from one on that survives being made a double. -/
def IsCount (text : List Char) : Prop :=
  isIntegerText (trim text) ∧ ∃ n : Int, Decimal.readInt (trim text) = .ok n ∧ 1 ≤ n ∧
    (Number.floatOfInt n >>= Number.intOfFloat) = .ok n

/-- The statements of the core. -/
inductive Stmt.Core : Stmt → Prop
  | assign {line : Nat} {name expr : String} : isAtom expr.toList → Core (.assign line name expr)
  | report {line : Nat} {expr : String} : isAtom expr.toList → Core (.report line expr)
  | branch {line : Nat} {condition : String} {body : List Stmt} :
      IsCondition condition.toList → (∀ s ∈ body, Core s) → Core (.branch line condition body [])
  | meeting {line : Nat} {count : String} {body : List Stmt} :
      IsCount count.toList → (∀ s ∈ body, Core s) → Core (.meeting line count body)

/-! ## What the texts mean -/

/-- An expression of the core, once it has been read. -/
inductive Atom where
  | int (n : Int)
  | text (s : String)
  | name (s : String) (free : s ∉ predefined)

/-- The value of an expression of the core. -/
def Atom.value (state : State) : Atom → Except Failure Value
  | int n => .ok (.int n)
  | text s => .ok (.text s)
  | name s _ => state.lookup s

/-- The instructions of an expression of the core. -/
def Atom.code : Atom → Emit (List Instr)
  | int n => do emit .push (← constantId (.int n))
  | text s => emitString s
  | name s _ => do emit .load (← slotOf s)

/-- A condition of the core, once it has been read. -/
inductive Condition where
  | atom (a : Atom)
  | equal (a b : Atom)

/-- The value of a condition of the core. -/
def Condition.value (state : State) : Condition → Except Failure Value
  | atom a => a.value state
  | equal a b => do return .bool ((← a.value state).equal (← b.value state))

/-- The instructions of a condition of the core. -/
def Condition.code : Condition → Emit (List Instr)
  | atom a => a.code
  | equal a b => do
    let first ← a.code
    let second ← b.code
    let last ← emit .eq
    return first ++ second ++ last

/-! ## Characters of the core -/

theorem not_mem_of_forall {p : Char → Bool} {s : List Char} {x : Char} (h : ∀ c ∈ s, p c)
    (hx : p x = false) : x ∉ s := by
  intro hm
  simp [h x hm] at hx

theorem forall_not_mem {p : Char → Bool} {s l : List Char} (h : ∀ c ∈ s, p c)
    (hl : l.any p = false) : ∀ c ∈ l, c ∉ s := fun c hc =>
  not_mem_of_forall h (Bool.eq_false_iff.2 (List.any_eq_false.1 hl c hc))

theorem toNat_of_isAlpha {c : Char} (h : c.isAlpha) :
    65 ≤ c.toNat ∧ c.toNat ≤ 90 ∨ 97 ≤ c.toNat ∧ c.toNat ≤ 122 := by
  have h : (c.isUpper || c.isLower) = true := h
  obtain hupper | hlower := Bool.or_eq_true_iff.1 h
  · exact .inl (of_decide_eq_true hupper)
  · obtain ⟨hlow, hhigh⟩ := Bool.and_eq_true_iff.1 hlower
    exact .inr ⟨of_decide_eq_true hlow, of_decide_eq_true hhigh⟩

theorem not_charIsDigit_of_isAlpha {c : Char} (h : c.isAlpha) : c.isDigit = false := by
  have hn := toNat_of_isAlpha h
  refine Bool.eq_false_iff.2 fun hd => ?_
  simp only [Char.isDigit, Bool.and_eq_true, decide_eq_true_eq, UInt32.le_iff_toNat_le,
    ge_iff_le] at hd
  have hhigh : c.toNat ≤ 57 := hd.2
  omega

theorem not_isDigit_of_isAlpha {c : Char} (h : c.isAlpha) : isDigit c = false := by
  have hn := toNat_of_isAlpha h
  rw [isDigit, if_pos (by omega), not_charIsDigit_of_isAlpha h]

theorem decimalDigit?_of_isAlpha {c : Char} (h : c.isAlpha) : decimalDigit? c = none := by
  have hn := toNat_of_isAlpha h
  rw [decimalDigit?, if_pos (by omega), if_neg (by simp [not_charIsDigit_of_isAlpha h])]

theorem not_isBlank_of_isAlpha {c : Char} (h : c.isAlpha) : isBlank c = false := by
  have hn := toNat_of_isAlpha h
  simp only [isBlank, Bool.or_eq_false_iff, Bool.and_eq_false_iff, decide_eq_false_iff_not,
    beq_eq_false_iff_ne]
  omega

theorem isLetter_of_isAlpha {c : Char} (h : c.isAlpha) : isLetter c := by
  have hn := toNat_of_isAlpha h
  rwa [isLetter, if_pos (by omega)]

theorem isWord_of_isAlpha {c : Char} (h : c.isAlpha) : isWord c := by
  have hn := toNat_of_isAlpha h
  simp [isWord, Char.isAlphanum, h, show c.toNat < 0x80 by omega]

/-- The characters of the sides of a comparison: blanks, digits and letters of ASCII. -/
def isPlain (c : Char) : Bool := isBlank c || isDigit c || c.isAlpha

theorem isPlain_of_isSide {text : List Char} (h : isSide text) : ∀ c ∈ text, isPlain c := by
  intro c hc
  by_cases hb : isBlank c
  · simp [isPlain, hb]
  · have hm : c ∈ trim text := mem_trim_of_not_blank hc (by simpa using hb)
    simp only [isSide, allDigits, isNameText, Bool.or_eq_true, Bool.and_eq_true,
      List.all_eq_true] at h
    obtain h | h := h
    · simp [isPlain, h.2 c hm]
    · simp [isPlain, h.1.2 c hm]

/-! ## What the interpreter makes of a text -/

theorem betweenQuotes_eq_false {q : Char} {s : List Char} (h : q ∉ s) :
    betweenQuotes q s = false := by
  have hne : s.head? ≠ some q := fun hs => h (List.mem_of_mem_head? hs)
  simp [betweenQuotes, hne]

theorem callParts?_eq_none {s : List Char} (h : '(' ∉ s) : callParts? s = none := by
  simp only [callParts?]
  split
  next rest hr =>
    refine absurd ?_ h
    exact (List.dropWhile_suffix isWord).subset (by rw [hr]; simp)
  · rfl

theorem comparison?_eq_none {s : List Char} (h : ∀ c ∈ ['<', '>', '=', '!'], c ∉ s) :
    comparison? s = none := by
  rw [comparison?, List.findSome?_eq_none_iff]
  intro op _
  rw [cut?_eq_none_of_any h (by cases op <;> decide)]
  rfl

/-- A text without a sign of arithmetic is not cut; a minus sign at its front does not count. -/
theorem operation?_eq_none {s : List Char} (h : ∀ c ∈ ['+', '*', '/', '%'], c ∉ s)
    (hm : s.head? = some '-' ∨ '-' ∉ s) : operation? s = none := by
  have hcut : ∀ op : ArithOp, op ≠ .sub → cut? op.sign.toList s = none := by
    intro op hop
    refine cut?_eq_none_of_any h ?_
    cases op
    case sub => exact absurd rfl hop
    all_goals decide
  rw [operation?, List.findSome?_eq_none_iff]
  intro op _
  cases op
  case sub =>
    obtain hm | hm := hm
    · simp [hm]
    · have hnone : cut? ['-'] s = none := cut?_eq_none (by simp) hm
      simp [hnone]
  all_goals
    dsimp only
    rw [hcut _ (by simp)]
    rfl

theorem eval_of_literal {state : State} {text : List Char} {v : Value}
    (h : (literal? (trim text) <|> numeral? (trim text)) = some v) : eval state text = .ok v := by
  rw [eval, h]

theorem eval_of_word {state : State} {text : List Char}
    (hl : (literal? (trim text) <|> numeral? (trim text)) = none)
    (hcall : callParts? (trim text) = none) (hcmp : comparison? (trim text) = none)
    (hop : operation? (trim text) = none) :
    eval state text = if isName (trim text) then state.lookup (String.ofList (trim text))
      else .error (.cannotEvaluate (String.ofList (trim text))) := by
  rw [eval, hl]
  dsimp only
  split
  next hc => simp [hc] at hcall
  next =>
    rw [ok_bind]
    dsimp only
    split
    next hc => simp [hc] at hcmp
    next =>
      split
      next ho => simp [ho] at hop
      next => rfl

theorem eval_of_comparison {state : State} {text l r : List Char} {op : CompareOp}
    (hl : (literal? (trim text) <|> numeral? (trim text)) = none)
    (hcall : callParts? (trim text) = none) (hcmp : comparison? (trim text) = some (op, l, r)) :
    eval state text = (do
      let x ← eval state l
      let y ← eval state r
      ofFault (op.apply x y)) := by
  rw [eval, hl]
  dsimp only
  split
  next hc => simp [hc] at hcall
  next =>
    rw [ok_bind]
    dsimp only
    split
    next hc =>
      rw [hcmp] at hc
      cases hc
      rfl
    next hc => simp [hc] at hcmp

/-! ## What the compiler makes of a text -/

theorem digits_of_digitsFrom {inside : Bool} {s ds : List Char}
    (h : Decimal.digitsFrom inside s = (ds, [])) : ∀ c ∈ s, c.isDigit ∨ c = '_' := by
  induction s generalizing inside ds with
  | nil => simp
  | cons x s ih =>
    simp only [Decimal.digitsFrom] at h
    intro c hc
    split at h
    next hx =>
      obtain rfl | hc := List.mem_cons.1 hc
      · exact .inl hx
      · have hrest : (Decimal.digitsFrom true s).2 = [] := congrArg Prod.snd h
        exact ih (Prod.ext rfl hrest) c hc
    next =>
      split at h
      next hx =>
        obtain rfl | hc := List.mem_cons.1 hc
        · simp_all
        · exact ih h c hc
      next => simp at h

theorem mem_takeSign {s : List Char} {c : Char} (h : c ∈ s) (hm : c ≠ '-') (hp : c ≠ '+') :
    c ∈ (Decimal.takeSign s).2 := by
  rw [Decimal.takeSign.eq_def]
  split
  · simpa [hm] using h
  · simpa [hp] using h
  · exact h

/-- A text that holds more than digits, underscores and signs is no integer. -/
theorem readInt_eq_none_of_mem_trim {s : List Char} {c : Char} (h : c ∈ trim s)
    (hd : decimalDigit? c = none) (hd' : c.isDigit = false) (hs : c ∉ ['_', '-', '+']) :
    (Decimal.readInt s).toOption = none := by
  have hplain : c ∈ Decimal.plainNumeral s := List.mem_map.2 ⟨c, h, by simp [hd]⟩
  simp only [List.mem_cons, List.not_mem_nil, or_false, not_or] at hs
  have hsign := mem_takeSign hplain hs.2.1 hs.2.2
  simp only [Decimal.readInt]
  split
  · rfl
  next hds =>
    obtain hc | hc := digits_of_digitsFrom hds c hsign
    · simp [hd'] at hc
    · exact absurd hc hs.1
  · rfl

theorem readInt_eq_none {s : List Char} {c : Char} (h : c ∈ s) (hb : isBlank c = false)
    (hd : decimalDigit? c = none) (hd' : c.isDigit = false) (hs : c ∉ ['_', '-', '+']) :
    (Decimal.readInt s).toOption = none :=
  readInt_eq_none_of_mem_trim (mem_trim_of_not_blank h hb) hd hd' hs

theorem compileExpr_of_quoted {text : List Char} (h : isQuotedText (trim text)) :
    compileExpr text = emitString (String.ofList (trim text).tail.dropLast) := by
  rw [compileExpr]
  exact if_pos h

theorem compileExpr_of_numeral {text : List Char} {v : Value}
    (hq : isQuotedText (trim text) = false) (h : Bytecode.numeral? (trim text) = some v) :
    compileExpr text = (do emit .push (← constantId v)) := by
  rw [compileExpr]
  refine (if_neg (ne_true_of_eq_false hq)).trans ?_
  rw [h]

theorem compileExpr_of_variable {text : List Char} (hq : isQuotedText (trim text) = false)
    (hn : Bytecode.numeral? (trim text) = none) (h : Bytecode.isVariable (trim text)) :
    compileExpr text = (do emit .load (← slotOf (String.ofList (trim text)))) := by
  rw [compileExpr]
  refine (if_neg (ne_true_of_eq_false hq)).trans ?_
  rw [hn]
  exact if_pos h

theorem compileExpr_of_operator {text l r : List Char} {op : Bytecode.Opcode}
    (hq : isQuotedText (trim text) = false) (hn : Bytecode.numeral? (trim text) = none)
    (hv : Bytecode.isVariable (trim text) = false)
    (h : Bytecode.operator? (trim text) = some (op, l, r)) :
    compileExpr text = (do
      let first ← compileExpr l
      let second ← compileExpr r
      let last ← emit op
      return first ++ second ++ last) := by
  rw [compileExpr]
  refine (if_neg (ne_true_of_eq_false hq)).trans ?_
  rw [hn]
  refine (if_neg (ne_true_of_eq_false hv)).trans ?_
  split
  next ho =>
    rw [h] at ho
    cases ho
    rfl
  next ho => simp [ho] at h

theorem compileExpr_of_nothing {text : List Char} (hq : isQuotedText (trim text) = false)
    (hn : Bytecode.numeral? (trim text) = none) (hv : Bytecode.isVariable (trim text) = false)
    (h : Bytecode.operator? (trim text) = none) : compileExpr text = return [] := by
  rw [compileExpr]
  refine (if_neg (ne_true_of_eq_false hq)).trans ?_
  rw [hn]
  refine (if_neg (ne_true_of_eq_false hv)).trans ?_
  split
  next ho => simp [ho] at h
  next => rfl

/-! ## Both read the core alike -/

/-- The interpreter and the compiler take a text for the same expression, or the text has no value in
any state. -/
def Readable (text : List Char) (a : Atom) : Prop :=
  (∀ state, eval state text = a.value state) ∧ compileExpr text = a.code

/-- A text without a value in any state. -/
def Unreadable (text : List Char) : Prop := ∀ state v, eval state text ≠ .ok v

theorem isQuotedText_eq_false {s : List Char} (hd : '"' ∉ s) (hs : '\'' ∉ s) :
    isQuotedText s = false := by
  simp [isQuotedText, betweenQuotes_eq_false hd, betweenQuotes_eq_false hs]

theorem literal?_of_quoted {s : List Char} (h : isQuotedText s) :
    literal? s = some (.text (String.ofList s.tail.dropLast)) := if_pos h

theorem literal?_eq_none {s : List Char} (hq : isQuotedText s = false)
    (hw : s ∉ ["benar".toList, "salah".toList, "kosong".toList]) : literal? s = none := by
  simp only [List.mem_cons, List.not_mem_nil, or_false, not_or] at hw
  refine (if_neg (ne_true_of_eq_false hq)).trans ?_
  rw [if_neg hw.1, if_neg hw.2.1, if_neg hw.2.2]

theorem readable_of_quoted {text : List Char} (h : isQuotedText (trim text)) :
    Readable text (.text (String.ofList (trim text).tail.dropLast)) := by
  refine ⟨fun state => eval_of_literal ?_, compileExpr_of_quoted h⟩
  rw [literal?_of_quoted h]
  rfl

theorem forall_of_isIntegerText {s : List Char} (h : isIntegerText s) :
    ∀ c ∈ s, (isDigit c || c = '-') := by
  simp only [isIntegerText, allDigits, Bool.or_eq_true, Bool.and_eq_true, List.all_eq_true,
    decide_eq_true_eq] at h
  intro c hc
  obtain ⟨-, h⟩ | ⟨hm, -, h⟩ := h
  · simp [h c hc]
  · cases s with
    | nil => simp at hc
    | cons x s =>
      obtain rfl | hc := List.mem_cons.1 hc
      · simp_all
      · simp [h c hc]

theorem isName_of_isIntegerText {s : List Char} (h : isIntegerText s) : isName s = false := by
  cases s with
  | nil => rfl
  | cons c s =>
    have hc := forall_of_isIntegerText h c (by simp)
    have halpha : c.isAlpha = false := by
      refine Bool.eq_false_iff.2 fun ha => ?_
      have hminus : c = '-' := by simpa [not_isDigit_of_isAlpha ha] using hc
      simp [hminus] at ha
    have hline : c ≠ '_' := by
      rintro rfl
      simp [show isDigit '_' = false by decide] at hc
    simp [isName, halpha, hline]

theorem isQuotedText_of_isIntegerText {s : List Char} (h : isIntegerText s) :
    isQuotedText s = false :=
  isQuotedText_eq_false (not_mem_of_forall (forall_of_isIntegerText h) (by decide))
    (not_mem_of_forall (forall_of_isIntegerText h) (by decide))

/-- As a literal, an integer is what it is read as. -/
theorem literal?_of_isIntegerText {s : List Char} (h : isIntegerText s) :
    (literal? s <|> numeral? s) = (Decimal.readInt s).toOption.map .int := by
  have hliteral : literal? s = none := by
    refine literal?_eq_none (isQuotedText_of_isIntegerText h) fun hw => ?_
    simp only [List.mem_cons, List.not_mem_nil, or_false] at hw
    obtain rfl | rfl | rfl := hw <;> revert h <;> decide
  have hpoint : s.contains '.' = false := by
    simpa using not_mem_of_forall (x := '.') (forall_of_isIntegerText h) (by decide)
  rw [hliteral, numeral?, hpoint]
  exact if_pos h

theorem readable_of_readInt {text : List Char} {n : Int} (h : isIntegerText (trim text))
    (hread : Decimal.readInt (trim text) = .ok n) : Readable text (.int n) := by
  have hpoint : '.' ∉ trim text := not_mem_of_forall (forall_of_isIntegerText h) (by decide)
  refine ⟨fun state => eval_of_literal ?_,
    compileExpr_of_numeral (isQuotedText_of_isIntegerText h) ?_⟩
  · rw [literal?_of_isIntegerText h, hread]
    rfl
  · rw [Bytecode.numeral?_of_no_point hpoint, hread]
    rfl

/-- An integer that cannot be read is taken for a word, and it is no name. -/
theorem unreadable_of_readInt {text : List Char} {e : Decimal.NotInteger}
    (h : isIntegerText (trim text)) (hread : Decimal.readInt (trim text) = .error e) :
    Unreadable text := by
  have hall := forall_of_isIntegerText h
  have hsign : (trim text).head? = some '-' ∨ '-' ∉ trim text := by
    simp only [isIntegerText, allDigits, Bool.or_eq_true, Bool.and_eq_true, List.all_eq_true,
      decide_eq_true_eq] at h
    obtain ⟨-, h⟩ | ⟨hm, -⟩ := h
    · exact .inr (not_mem_of_forall h (by decide))
    · exact .inl hm
  intro state v hv
  rw [eval_of_word (by rw [literal?_of_isIntegerText h, hread]; rfl)
    (callParts?_eq_none (not_mem_of_forall hall (by decide)))
    (comparison?_eq_none (forall_not_mem hall (by decide)))
    (operation?_eq_none (forall_not_mem hall (by decide)) hsign),
    isName_of_isIntegerText h] at hv
  simp at hv

theorem isIntegerText_eq_false {s : List Char} {c : Char} (h : c ∈ s) (hd : isDigit c = false)
    (hm : c ≠ '-') : isIntegerText s = false := by
  refine Bool.eq_false_iff.2 fun hs => ?_
  simpa [hd, hm] using forall_of_isIntegerText hs c h

theorem readable_of_name {text : List Char} (h : isNameText (trim text)) :
    ∃ free, Readable text (.name (String.ofList (trim text)) free) := by
  simp only [isNameText, Bool.and_eq_true, Bool.not_eq_true', List.isEmpty_eq_false_iff,
    List.all_eq_true, List.contains_eq_mem, decide_eq_false_iff_not] at h
  obtain ⟨⟨hne, halpha⟩, hword⟩ := h
  have hmiss : ∀ x : Char, x.isAlpha = false → x ∉ trim text := fun x hx =>
    not_mem_of_forall halpha hx
  obtain ⟨c, rest, hs⟩ := List.exists_cons_of_ne_nil hne
  have hc : c ∈ trim text := by simp [hs]
  have hminus : c ≠ '-' := by
    rintro rfl
    exact hmiss '-' (by decide) hc
  have hquoted := isQuotedText_eq_false (hmiss '"' (by decide)) (hmiss '\'' (by decide))
  have hliteral : literal? (trim text) = none := by
    refine literal?_eq_none hquoted fun hw => hword ?_
    simp only [List.mem_cons, List.not_mem_nil, or_false] at hw
    obtain hw | hw | hw := hw <;> rw [hw] <;> decide
  have hpoint : (trim text).contains '.' = false := by simpa using hmiss '.' (by decide)
  have hnumeral : numeral? (trim text) = none := by
    rw [numeral?, hpoint]
    exact if_neg (ne_true_of_eq_false
      (isIntegerText_eq_false hc (not_isDigit_of_isAlpha (halpha c hc)) hminus))
  have hread : (Decimal.readInt (trim text)).toOption = none := by
    refine readInt_eq_none hc (not_isBlank_of_isAlpha (halpha c hc))
      (decimalDigit?_of_isAlpha (halpha c hc)) (not_charIsDigit_of_isAlpha (halpha c hc)) ?_
    exact fun hm => forall_not_mem halpha (by decide) c hm hc
  refine ⟨fun hm => hword (List.mem_append_right _ hm), fun state => ?_,
    compileExpr_of_variable hquoted ?_ ?_⟩
  · rw [eval_of_word (by rw [hliteral, hnumeral]; rfl)
      (callParts?_eq_none (hmiss '(' (by decide)))
      (comparison?_eq_none (forall_not_mem halpha (by decide)))
      (operation?_eq_none (forall_not_mem halpha (by decide)) (.inr (hmiss '-' (by decide))))]
    refine if_pos ?_
    rw [hs] at halpha ⊢
    simp only [isName, Bool.and_eq_true, Bool.or_eq_true, List.all_eq_true]
    exact ⟨.inl (halpha c (by simp)), fun x hx => isWord_of_isAlpha (halpha x (by simp [hx]))⟩
  · rw [Bytecode.numeral?_of_no_point (hmiss '.' (by decide)), hread]
    rfl
  · have hall : (trim text).all isLetter := by
      rw [List.all_eq_true]
      exact fun x hx => isLetter_of_isAlpha (halpha x hx)
    simp [Bytecode.isVariable, hne, hall]

theorem readable_of_isAtom {text : List Char} (h : isAtom text) :
    (∃ a, Readable text a) ∨ Unreadable text := by
  simp only [isAtom, Bool.or_eq_true] at h
  obtain (h | h) | h := h
  · cases hread : Decimal.readInt (trim text) with
    | ok n => exact .inl ⟨_, readable_of_readInt h hread⟩
    | error e => exact .inr (unreadable_of_readInt h hread)
  · exact .inl ⟨_, readable_of_quoted h⟩
  · obtain ⟨free, h⟩ := readable_of_name h
    exact .inl ⟨_, h⟩

theorem isAtom_of_isSide {text : List Char} (h : isSide text) : isAtom text := by
  simp only [isSide, Bool.or_eq_true] at h
  simp only [isAtom, isIntegerText, Bool.or_eq_true]
  obtain h | h := h
  · exact .inl (.inl (.inl h))
  · exact .inr h

section Comparison

variable {text l r : List Char} (ht : trim text = l ++ ['=', '='] ++ r) (hl : isSide l)
  (hr : isSide r)

include ht hl hr

theorem not_mem_comparison {x : Char} (hx : isPlain x = false) (he : x ≠ '=') :
    x ∉ trim text := by
  rw [ht]
  simp only [List.mem_append, List.mem_cons, List.not_mem_nil, or_false, not_or]
  exact ⟨⟨not_mem_of_forall (isPlain_of_isSide hl) hx, he, he⟩,
    not_mem_of_forall (isPlain_of_isSide hr) hx⟩

theorem isQuotedText_comparison : isQuotedText (trim text) = false :=
  isQuotedText_eq_false (not_mem_comparison ht hl hr (by decide) (by decide))
    (not_mem_comparison ht hl hr (by decide) (by decide))

theorem eval_comparison (state : State) :
    eval state text = (do return .bool ((← eval state l).equal (← eval state r))) := by
  have hmiss : ∀ x, isPlain x = false → x ≠ '=' → x ∉ trim text := fun x hx he =>
    not_mem_comparison ht hl hr hx he
  have hmem : '=' ∈ trim text := by simp [ht]
  have hliteral : literal? (trim text) = none := by
    refine literal?_eq_none (isQuotedText_comparison ht hl hr) fun hw => ?_
    simp only [List.mem_cons, List.not_mem_nil, or_false] at hw
    obtain hw | hw | hw := hw <;> rw [hw] at hmem <;> revert hmem <;> decide
  have hnumeral : numeral? (trim text) = none := by
    have hpoint : (trim text).contains '.' = false := by
      simpa using hmiss '.' (by decide) (by decide)
    rw [numeral?, hpoint]
    exact if_neg (ne_true_of_eq_false (isIntegerText_eq_false hmem (by decide) (by decide)))
  have hcomparison : comparison? (trim text) = some (.eq, l, r) := by
    have hle : cut? "<=".toList (trim text) = none :=
      cut?_eq_none (by decide) (hmiss '<' (by decide) (by decide))
    have hge : cut? ">=".toList (trim text) = none :=
      cut?_eq_none (by decide) (hmiss '>' (by decide) (by decide))
    have heq : cut? "==".toList (trim text) = some (l, r) := by
      rw [ht]
      exact cut?_append (not_mem_of_forall (isPlain_of_isSide hl) (by decide))
    simp only [comparison?, CompareOp.all, List.findSome?, CompareOp.sign, hle, hge, heq,
      Option.map_none, Option.map_some]
  rw [eval_of_comparison (by rw [hliteral, hnumeral]; rfl)
    (callParts?_eq_none (hmiss '(' (by decide) (by decide))) hcomparison]
  rfl

theorem compileExpr_comparison :
    compileExpr text = (do
      let first ← compileExpr l
      let second ← compileExpr r
      let last ← emit .eq
      return first ++ second ++ last) := by
  have hmiss : ∀ x, isPlain x = false → x ≠ '=' → x ∉ trim text := fun x hx he =>
    not_mem_comparison ht hl hr hx he
  have hmem : '=' ∈ trim text := by simp [ht]
  refine compileExpr_of_operator (isQuotedText_comparison ht hl hr) ?_ ?_ ?_
  · rw [Bytecode.numeral?_of_no_point (hmiss '.' (by decide) (by decide)),
      readInt_eq_none hmem (by decide) (by decide) (by decide) (by decide)]
    rfl
  · have hall : (trim text).all isLetter = false := by
      rw [List.all_eq_false]
      exact ⟨'=', hmem, by decide⟩
    have hline : '_' ∉ trim text := hmiss '_' (by decide) (by decide)
    simp [Bytecode.isVariable, hall, hline]
  · have hnone (x : Char) (hx : isPlain x = false) (he : x ≠ '=') : cut? [x] (trim text) = none :=
      cut?_eq_none (by simp) (hmiss x hx he)
    have heq : cut? ['=', '='] (trim text) = some (l, r) := by
      rw [ht]
      exact cut?_append (not_mem_of_forall (isPlain_of_isSide hl) (by decide))
    simp only [Bytecode.operator?, Bytecode.operators, List.findSome?,
      hnone '+' (by decide) (by decide), hnone '-' (by decide) (by decide),
      hnone '*' (by decide) (by decide), hnone '/' (by decide) (by decide), heq, Option.map_none,
      Option.map_some]

end Comparison

theorem readable_of_condition {text : List Char} (h : IsCondition text) :
    (∃ c : Condition, (∀ state, eval state text = c.value state) ∧ compileExpr text = c.code) ∨
      Unreadable text := by
  obtain h | ⟨l, r, ht, hl, hr⟩ := h
  · obtain ⟨a, h⟩ | h := readable_of_isAtom h
    · exact .inl ⟨.atom a, h⟩
    · exact .inr h
  · have heval := eval_comparison ht hl hr
    obtain ⟨a, ha⟩ | hbad := readable_of_isAtom (isAtom_of_isSide hl)
    · obtain ⟨b, hb⟩ | hbad := readable_of_isAtom (isAtom_of_isSide hr)
      · refine .inl ⟨.equal a b, fun state => ?_, ?_⟩
        · rw [heval, ha.1, hb.1]
          rfl
        · rw [compileExpr_comparison ht hl hr, ha.2, hb.2]
          rfl
      · refine .inr fun state v hv => ?_
        rw [heval] at hv
        obtain ⟨x, -, hv⟩ := bind_eq_ok.1 hv
        obtain ⟨y, hy, -⟩ := bind_eq_ok.1 hv
        exact hbad state y hy
    · refine .inr fun state v hv => ?_
      rw [heval] at hv
      obtain ⟨x, hx, -⟩ := bind_eq_ok.1 hv
      exact hbad state x hx

end Birokrasi.Structured
