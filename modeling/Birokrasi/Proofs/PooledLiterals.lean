import Birokrasi.Proofs.EmittedCode
import Birokrasi.Proofs.ExactValues
import Birokrasi.Proofs.Walks

/-!
# Literals and the pool of constants

Every numeral of a program is emitted as one push, in the order of the program. The pool keeps one
constant of each value, and values are equal across kinds: so a push does not push its own literal, but
the first literal of the program that is equal to it (`literal_pushes`). That is another one if an integer
and the double of the same value, or both zeros, occur in one program.
-/

namespace Birokrasi.Bytecode

open Birokrasi.Decimal (Whole)
open Birokrasi.Structured (Stmt Program)
open Birokrasi.Text

/-! ## Equal numerals -/

section Numerals

variable {u v w : Value}

theorem isSome_number? (h : IsNumeral v) : v.number?.isSome = true := by
  cases v with
  | int | float => rfl
  | _ => exact h.elim

theorem same_iff_of_isNumeral (hu : IsNumeral u) (hv : IsNumeral v) :
    u.same v = true ↔ u.exact? = v.exact? :=
  Value.same_iff_exact (isSome_number? hu) (isSome_number? hv)

theorem same_self (h : IsNumeral v) : v.same v = true := (same_iff_of_isNumeral h h).2 rfl

theorem same_trans (hu : IsNumeral u) (hv : IsNumeral v) (hw : IsNumeral w) (h : u.same v = true)
    (h' : v.same w = true) : u.same w = true := by
  rw [same_iff_of_isNumeral hu hv] at h
  rw [same_iff_of_isNumeral hv hw] at h'
  exact (same_iff_of_isNumeral hu hw).2 (h.trans h')

theorem same_symm (hu : IsNumeral u) (hv : IsNumeral v) (h : u.same v = true) : v.same u = true :=
  (same_iff_of_isNumeral hv hu).2 ((same_iff_of_isNumeral hu hv).1 h).symm

/-- Two numerals of one value that are not the same: an integer and a double, or two zeros. -/
inductive Mixed : Value → Value → Prop
  | intFloat {n : Int} {x : Float} (h : Whole x n) : Mixed (.int n) (.float x)
  | floatInt {n : Int} {x : Float} (h : Whole x n) : Mixed (.float x) (.int n)
  | zeros {x y : Float} (hx : Whole x 0) (hy : Whole y 0) (hne : x ≠ y) : Mixed (.float x) (.float y)

theorem eq_or_mixed (hu : IsNumeral u) (hv : IsNumeral v) (h : u.same v = true) :
    u = v ∨ Mixed u v := by
  cases u with
  | int n =>
    cases v with
    | int m => exact .inl (congrArg Value.int (eq_of_same_int h))
    | float x => exact .inr (.intFloat (Value.int_same_float.1 h))
    | _ => exact hv.elim
  | float x =>
    cases v with
    | int n => exact .inr (.floatInt (Value.float_same_int.1 h))
    | float y =>
      by_cases hne : x = y
      · exact .inl (congrArg Value.float hne)
      · obtain ⟨hx, hy⟩ := (Value.float_same_float.1 h).resolve_left hne
        exact .inr (.zeros hx hy hne)
    | _ => exact hv.elim
  | _ => exact hu.elim

theorem Mixed.same (h : Mixed u v) : u.same v = true := by
  cases h with
  | intFloat h => exact Value.int_same_float.2 h
  | floatInt h => exact Value.float_same_int.2 h
  | zeros hx hy _ => exact Value.float_same_float.2 (.inr ⟨hx, hy⟩)

theorem Mixed.ne (h : Mixed u v) : u ≠ v := by
  cases h with
  | intFloat | floatInt => simp
  | zeros _ _ hne => simpa using hne

end Numerals

/-! ## Literals -/

/-- The numerals of an expression, in the order in which they are emitted. -/
def exprNumerals (text : List Char) : List Value :=
  let s := trim text
  if isQuotedBy '"' s || isQuotedBy '\'' s then []
  else
    match numeral? s with
    | some v => [v]
    | none =>
      if isVariable s then []
      else
        match h : operator? s with
        | some (_, left, right) =>
          have := length_operator? h
          have : s.length ≤ text.length := length_trim_le text
          exprNumerals left ++ exprNumerals right
        | none => []
termination_by text.length

section Expressions

variable {text : List Char}

theorem exprNumerals_of_quoted (hq : (isQuotedBy '"' (trim text) || isQuotedBy '\'' (trim text)) = true) :
    exprNumerals text = [] := by
  rw [exprNumerals]
  exact if_pos hq

variable (hq : ¬ (isQuotedBy '"' (trim text) || isQuotedBy '\'' (trim text)) = true)

include hq

theorem exprNumerals_of_numeral {v : Value} (hv : numeral? (trim text) = some v) :
    exprNumerals text = [v] := by
  rw [exprNumerals]
  dsimp only
  rw [if_neg hq, hv]

variable (hn : numeral? (trim text) = none)

include hn

theorem exprNumerals_of_variable (hv : isVariable (trim text) = true) : exprNumerals text = [] := by
  rw [exprNumerals]
  dsimp only
  rw [if_neg hq, hn]
  exact if_pos hv

variable (hv : ¬ isVariable (trim text) = true)

include hv

theorem exprNumerals_of_operator {op : Opcode} {left right : List Char}
    (ho : operator? (trim text) = some (op, left, right)) :
    exprNumerals text = exprNumerals left ++ exprNumerals right := by
  rw [exprNumerals]
  dsimp only
  rw [if_neg hq, hn]
  dsimp only
  rw [if_neg hv]
  split
  next h =>
    cases ho.symm.trans h
    rfl
  next h => cases ho.symm.trans h

theorem exprNumerals_of_none (ho : operator? (trim text) = none) : exprNumerals text = [] := by
  rw [exprNumerals]
  dsimp only
  rw [if_neg hq, hn]
  dsimp only
  rw [if_neg hv]
  split
  next h => cases ho.symm.trans h
  · rfl

end Expressions

mutual

/-- The numerals of a statement that are emitted, in their order. -/
def stmtNumerals : Stmt → List Value
  | .block _ body => bodyNumerals body
  | .assign _ _ expr | .report _ expr | .embezzle _ expr => exprNumerals expr.toList
  | .meeting _ count body => exprNumerals count.toList ++ bodyNumerals body
  | .branch _ condition body _ => exprNumerals condition.toList ++ bodyNumerals body
  | .stall .. | .attempt .. | .procedure .. | .call .. | .unknown _ => []

def bodyNumerals : List Stmt → List Value
  | [] => []
  | s :: rest => stmtNumerals s ++ bodyNumerals rest

end

/-- Whether an instruction pushes a number. -/
def Instr.pushesNumber (i : Instr) : Bool := i.op = .push && i.operand < stringMark

/-- The constants that instructions push, by their numbers. -/
def pushedIds (is : List Instr) : List Nat := (is.filter Instr.pushesNumber).map Instr.operand

theorem pushedIds_append (is js : List Instr) : pushedIds (is ++ js) = pushedIds is ++ pushedIds js := by
  simp [pushedIds]

/-! ## The pool -/

/-- The pool holds, for every numeral, the first of the literals `seen` that is equal to it. -/
structure Stands (constants seen : List Value) : Prop where
  numerals : ∀ v ∈ constants, IsNumeral v
  find : ∀ v, IsNumeral v → constants.find? (·.same v) = seen.find? (·.same v)

theorem Stands.add {constants seen : List Value} {v : Value} (h : Stands constants seen)
    (hv : IsNumeral v) : Stands (constants ++ [v]) (seen ++ [v]) where
  numerals := List.forall_mem_append.2 ⟨h.numerals, List.forall_mem_singleton.2 hv⟩
  find u hu := by rw [List.find?_append, List.find?_append, h.find u hu]

/-- A literal that is equal to one of the pool adds nothing, not even for other literals. -/
theorem Stands.skip {constants seen : List Value} {v w : Value} (h : Stands constants seen)
    (hv : IsNumeral v) (hold : constants.find? (·.same v) = some w) :
    Stands constants (seen ++ [v]) where
  numerals := h.numerals
  find u hu := by
    rw [List.find?_append, h.find u hu]
    cases hfind : seen.find? (·.same u) with
    | some x => rfl
    | none =>
      have hw : w ∈ constants := List.mem_of_find?_eq_some hold
      have hvu : v.same u ≠ true := by
        intro hsame
        have hwv : w.same v = true := List.find?_some (p := fun x : Value => x.same v) hold
        have hwu := same_trans (h.numerals w hw) hv hu hwv hsame
        rw [← h.find u hu, List.find?_eq_none] at hfind
        exact hfind w hw hwu
      simp [hvu]

/-- The number of a literal is that of the first literal equal to it. -/
theorem getElem?_constantId_of_stands {b : Builder} {seen : List Value} {v : Value}
    (h : Stands b.constants seen) (hv : IsNumeral v) :
    ((constantId v).run b).2.constants[((constantId v).run b).1]? =
        (seen ++ [v]).find? (·.same v) ∧
      Stands ((constantId v).run b).2.constants (seen ++ [v]) := by
  rw [run_constantId]
  cases hfind : b.constants.findIdx? fun w => w.same v with
  | some i =>
    obtain ⟨hi, hsame, hbefore⟩ := List.findIdx?_eq_some_iff_getElem.1 hfind
    have hold : b.constants.find? (·.same v) = some b.constants[i] :=
      List.find?_eq_some_iff_getElem.2 ⟨hsame, i, hi, rfl, fun j hj => by simpa using hbefore j hj⟩
    refine ⟨?_, h.skip hv hold⟩
    rw [List.find?_append, ← h.find v hv, hold, List.getElem?_eq_getElem hi]
    rfl
  | none =>
    have hnew : b.constants.find? (·.same v) = none := by
      simpa [List.findIdx?_eq_none_iff, List.find?_eq_none] using hfind
    refine ⟨?_, h.add hv⟩
    rw [List.find?_append, ← h.find v hv, hnew]
    simp [same_self hv]

/-! ## Compiling -/

/-- Instructions come to `b` for the literals `vs`, after the literals `seen`: they push a constant for each
of them, which in the end is the first literal equal to it. -/
structure Voices (seen : List Value) (b : Builder) (is : List Instr) (vs : List Value) (b' : Builder) :
    Prop where
  numerals : ∀ v ∈ vs, IsNumeral v
  within : b.constants <+: b'.constants
  stands : Stands b.constants seen → Stands b'.constants (seen ++ vs)
  pushes : Stands b.constants seen → ∀ {constants literals : List Value},
    b'.constants <+: constants → constants.length ≤ stringMark → seen ++ vs <+: literals →
    (pushedIds is).map (constants[·]?) = vs.map fun v => literals.find? (·.same v)

/-- A step of compiling that emits these literals, whatever came before it. -/
def Voicing (act : Emit (List Instr)) (vs : List Value) : Prop :=
  ∀ seen b, Voices seen b (act.run b).1 vs (act.run b).2

section Voices

variable {seen vs ws : List Value} {b b' b'' : Builder} {is js : List Instr}

/-- Instructions that push no number. -/
theorem voices_silent (h : b'.constants = b.constants) (his : pushedIds is = []) :
    Voices seen b is [] b' where
  numerals := nofun
  within := h ▸ List.prefix_refl _
  stands hs := by rwa [List.append_nil, h]
  pushes _ _ _ _ _ _ := by rw [his]; rfl

theorem Voices.append (h : Voices seen b is vs b') (h' : Voices (seen ++ vs) b' js ws b'') :
    Voices seen b (is ++ js) (vs ++ ws) b'' where
  numerals := List.forall_mem_append.2 ⟨h.numerals, h'.numerals⟩
  within := h.within.trans h'.within
  stands hs := by
    rw [← List.append_assoc]
    exact h'.stands (h.stands hs)
  pushes hs constants literals hc hfew hl := by
    rw [← List.append_assoc] at hl
    rw [pushedIds_append, List.map_append, List.map_append,
      h.pushes hs (h'.within.trans hc) hfew ((List.prefix_append _ _).trans hl),
      h'.pushes (h.stands hs) hc hfew hl]

/-- Instructions that push no number may follow. -/
theorem Voices.silent (h : Voices seen b is vs b') (h' : Voices (seen ++ vs) b' js [] b'') :
    Voices seen b (is ++ js) vs b'' := by
  rw [← List.append_nil vs]
  exact h.append h'

theorem pushedIds_of_ne {op : Opcode} (h : op ≠ .push) (operand : Nat) :
    pushedIds [⟨op, operand⟩] = [] := by
  simp [pushedIds, Instr.pushesNumber, h]

end Voices

theorem voicing_emit {op : Opcode} (h : op ≠ .push) (operand : Nat) : Voicing (emit op operand) [] :=
  fun _ _ => voices_silent rfl (pushedIds_of_ne h operand)

theorem constants_slotOf (name : String) (b : Builder) :
    ((slotOf name).run b).2.constants = b.constants := by
  rw [run_slotOf]
  split <;> rfl

theorem voicing_slot (op : Opcode) (hop : Instr.alwaysWide op) (h : op ≠ .push) (name : String) :
    Voicing (do emit op (← slotOf name)) [] := by
  intro seen b
  have hconstants := constants_slotOf name b
  obtain ⟨i, b₁, hid⟩ : ∃ i b₁, (slotOf name).run b = (i, b₁) := ⟨_, _, rfl⟩
  rw [hid] at hconstants
  rw [show (do emit op (← slotOf name) : Emit (List Instr)).run b = _ from
    run_emit_pooled op hop id hid]
  exact voices_silent hconstants (pushedIds_of_ne h i)

theorem constants_stringId (s : String) (b : Builder) :
    ((stringId s).run b).2.constants = b.constants := by
  rw [run_stringId]
  split <;> rfl

/-- The push of a text is marked, and none of a number. -/
theorem voicing_emitString (s : String) : Voicing (emitString s) [] := by
  intro seen b
  have hconstants := constants_stringId s b
  obtain ⟨i, b₁, hid⟩ : ∃ i b₁, (stringId s).run b = (i, b₁) := ⟨_, _, rfl⟩
  rw [hid] at hconstants
  have hrun := run_emit_pooled .push rfl (· ||| stringMark) hid
  have hmark : stringMark ≤ i ||| stringMark := Nat.right_le_or
  rw [show (emitString s).run b = _ from hrun]
  refine voices_silent hconstants ?_
  simp [pushedIds, Instr.pushesNumber, hmark]

theorem voicing_constant {v : Value} (hv : IsNumeral v) :
    Voicing (do emit .push (← constantId v)) [v] := by
  intro seen b
  have hwithin := (pools_constantId hv b).within.constants
  have hstands (hs : Stands b.constants seen) := getElem?_constantId_of_stands hs hv
  have hlt := constantId_lt v b
  obtain ⟨i, b₁, hid⟩ : ∃ i b₁, (constantId v).run b = (i, b₁) := ⟨_, _, rfl⟩
  rw [hid] at hwithin hstands hlt
  rw [show (do emit .push (← constantId v) : Emit (List Instr)).run b = _ from
    run_emit_pooled .push rfl id hid]
  refine ⟨List.forall_mem_singleton.2 hv, hwithin, fun hs => (hstands hs).2,
    fun hs {constants literals} hc hfew hl => ?_⟩
  have hsmall : i < stringMark := Nat.lt_of_lt_of_le hlt (hc.length_le.trans hfew)
  have hpushed : pushedIds [⟨.push, id i⟩] = [i] := by simp [pushedIds, Instr.pushesNumber, hsmall]
  -- The literal itself is there to be found, so what follows makes no difference.
  obtain ⟨w, hw⟩ : ∃ w, (seen ++ [v]).find? (·.same v) = some w := by
    rw [← Option.isSome_iff_exists, List.find?_isSome]
    exact ⟨v, by simp, same_self hv⟩
  have hentry : constants[i]? = some w := getElem?_of_prefix hc ((hstands hs).1.trans hw)
  obtain ⟨rest, rfl⟩ := hl
  rw [hpushed, List.map_singleton, List.map_singleton, hentry, List.find?_append, hw]
  rfl

theorem voicing_compileExpr (text : List Char) : Voicing (compileExpr text) (exprNumerals text) := by
  fun_induction compileExpr text with
  | case1 text s hquoted =>
    rw [exprNumerals_of_quoted hquoted]
    exact voicing_emitString _
  | case2 text s hquoted v hnumeral =>
    rw [exprNumerals_of_numeral hquoted hnumeral]
    exact voicing_constant (isNumeral_of_numeral? hnumeral)
  | case3 text s hquoted hnumeral hvariable =>
    rw [exprNumerals_of_variable hquoted hnumeral hvariable]
    exact voicing_slot .load rfl (by decide) _
  | case4 text s hquoted hnumeral hvariable op left right hop _ _ hleft hright =>
    have hpush : op ≠ .push :=
      (by decide : ∀ o ∈ bareOperations, o ≠ .push) op (mem_bareOperations hop)
    rw [exprNumerals_of_operator hquoted hnumeral hvariable hop]
    exact fun seen b => ((hleft seen b).append (hright _ _)).silent (voicing_emit hpush 0 _ _)
  | case5 text s hquoted hnumeral hvariable hop =>
    rw [exprNumerals_of_none hquoted hnumeral hvariable hop]
    exact fun _ _ => voices_silent rfl rfl

mutual

theorem voicing_compileStmt : (s : Stmt) → Voicing (compileStmt s) (stmtNumerals s)
  | .block _ body => by
    rw [compileStmt, stmtNumerals]
    exact voicing_compileBody body
  | .assign _ name expr => fun seen b => by
    rw [compileStmt, stmtNumerals]
    exact (voicing_compileExpr expr.toList seen b).silent (voicing_slot .store rfl (by decide) name _ _)
  | .report _ expr => fun seen b => by
    rw [compileStmt, stmtNumerals]
    exact (voicing_compileExpr expr.toList seen b).silent (voicing_emit (by decide) _ _ _)
  | .embezzle _ percent => fun seen b => by
    rw [compileStmt, stmtNumerals]
    exact (voicing_compileExpr percent.toList seen b).silent (voicing_emit (by decide) _ _ _)
  | .stall _ info => fun seen b => by
    rw [compileStmt, stmtNumerals]
    exact (voicing_emitString info seen b).silent (voicing_emit (by decide) _ _ _)
  | .meeting _ count body => fun seen b => by
    rw [compileStmt, stmtNumerals]
    exact ((voicing_compileExpr count.toList seen b).append (voicing_compileBody body _ _)).silent
      (voicing_emit (by decide) _ _ _)
  | .branch _ condition body _ => fun seen b => by
    rw [compileStmt, stmtNumerals]
    refine Voices.append (Voices.silent (voicing_compileExpr condition.toList seen b) ?_)
      (voicing_compileBody body _ _)
    exact voices_silent rfl (pushedIds_of_ne (by decide) _)
  | .attempt .. => fun seen b => by
    rw [compileStmt, stmtNumerals]
    exact voices_silent rfl rfl
  | .procedure .. => fun seen b => by
    rw [compileStmt, stmtNumerals]
    exact voices_silent rfl rfl
  | .call .. => fun seen b => by
    rw [compileStmt, stmtNumerals]
    exact voices_silent rfl rfl
  | .unknown _ => fun seen b => by
    rw [compileStmt, stmtNumerals]
    exact voices_silent rfl rfl

theorem voicing_compileBody : (body : List Stmt) → Voicing (compileBody body) (bodyNumerals body)
  | [] => fun seen b => by
    rw [compileBody, bodyNumerals]
    exact voices_silent rfl rfl
  | s :: rest => fun seen b => by
    rw [compileBody, bodyNumerals]
    exact (voicing_compileStmt s seen b).append (voicing_compileBody rest _ _)

end

/-- The constants that a program pushes are the first literals equal to its literals. -/
theorem pushedIds_instructions (p : Program) (h : (compile p).constants.length ≤ stringMark) :
    (pushedIds (instructions p).1).map ((compile p).constants[·]?) =
      (bodyNumerals p.body).map fun v => (bodyNumerals p.body).find? (·.same v) := by
  have hempty : Stands [] [] := ⟨nofun, fun _ _ => rfl⟩
  have hfinish : Opcode.finish ≠ .push := by decide
  have hvoices := (voicing_compileBody p.body [] {}).silent (voicing_emit hfinish 0 _ _)
  exact hvoices.pushes hempty (List.prefix_refl _) h (List.prefix_refl _)

theorem length_constants_compile {p : Program} (h : (compile p).code.length ≤ 65535) :
    (compile p).constants.length ≤ stringMark := by
  have hsize := size_instructions p
  have hfew := (sound_instructions p).constants
  show (instructions p).2.constants.length ≤ 0x8000
  omega

theorem isNumeral_of_mem {p : Program} {v : Value} (h : v ∈ bodyNumerals p.body) : IsNumeral v :=
  (voicing_compileBody p.body [] {}).numerals v h

/-! ## Literals of one value -/

/-- Every literal has a first literal equal to it. -/
theorem exists_first {literals : List Value} (hall : ∀ v ∈ literals, IsNumeral v) {v : Value}
    (hv : v ∈ literals) :
    ∃ w ∈ literals, literals.find? (·.same v) = some w ∧ (w = v ∨ Mixed w v) := by
  obtain ⟨w, hw⟩ : ∃ w, literals.find? (·.same v) = some w := by
    rw [← Option.isSome_iff_exists, List.find?_isSome]
    exact ⟨v, hv, same_self (hall v hv)⟩
  have hmem := List.mem_of_find?_eq_some hw
  have hsame : w.same v = true := List.find?_some (p := fun x : Value => x.same v) hw
  exact ⟨w, hmem, hw, eq_or_mixed (hall w hmem) (hall v hv) hsame⟩

/-- All literals are the first of their value exactly if no two of one value differ. -/
theorem all_first_iff {literals : List Value} (hall : ∀ v ∈ literals, IsNumeral v) :
    (∀ v ∈ literals, literals.find? (·.same v) = some v) ↔
      ∀ u ∈ literals, ∀ v ∈ literals, ¬ Mixed u v := by
  constructor
  · intro h u hu v hv hmixed
    have hcongr : literals.find? (·.same u) = literals.find? (·.same v) := by
      refine List.find?_congr fun w hw => ?_
      have huv := hmixed.same
      have hvu := same_symm (hall u hu) (hall v hv) huv
      rw [Bool.eq_iff_iff]
      exact ⟨fun hwu => same_trans (hall w hw) (hall u hu) (hall v hv) hwu huv,
        fun hwv => same_trans (hall w hw) (hall v hv) (hall u hu) hwv hvu⟩
    rw [h u hu, h v hv] at hcongr
    exact hmixed.ne (Option.some.inj hcongr)
  · intro h v hv
    obtain ⟨w, hw, hfind, rfl | hmixed⟩ := exists_first hall hv
    · exact hfind
    · exact absurd hmixed (h w hw v hv)

/-! ## Addresses of literals -/

theorem map_snd_located (start : Nat) (is : List Instr) : (located start is).map Prod.snd = is := by
  induction is generalizing start with
  | nil => rfl
  | cons i is ih => rw [located, List.map_cons, ih]

/-- The pushes of numbers, with their addresses. -/
def numberPushes (p : Program) : List (Nat × Instr) :=
  (located 0 (instructions p).1).filter fun e => e.2.pushesNumber

theorem map_operand_numberPushes (p : Program) :
    (numberPushes p).map (fun e => e.2.operand) = pushedIds (instructions p).1 := by
  have hfilter : (((located 0 (instructions p).1).map Prod.snd).filter Instr.pushesNumber) =
      (numberPushes p).map Prod.snd := List.filter_map
  rw [map_snd_located] at hfilter
  rw [pushedIds, hfilter, List.map_map]
  rfl

/-- The push of a literal refers to the first literal equal to it. -/
theorem getElem?_numberPushes {p : Program} (h : (compile p).constants.length ≤ stringMark) {k a : Nat}
    {v : Value} {i : Instr} (hv : (bodyNumerals p.body)[k]? = some v)
    (hi : (numberPushes p)[k]? = some (a, i)) :
    (compile p).constants[i.operand]? = (bodyNumerals p.body).find? (·.same v) := by
  have hids := pushedIds_instructions p h
  rw [← map_operand_numberPushes, List.map_map] at hids
  have hk := congrArg (·[k]?) hids
  simpa [hv, hi] using hk

theorem codeAt_of_mem_located {is : List Instr} {code : Array UInt8} {a : Nat} {i : Instr}
    (hcode : code.toList = assemble is) (h : (a, i) ∈ located 0 is) : Machine.CodeAt code a [i] := by
  obtain ⟨-, rest, hrest⟩ := exists_drop_assemble h
  have hlt := lt_of_mem_located h
  rw [Nat.sub_zero] at hrest
  refine ⟨(assemble is).take a, rest, ?_, ?_⟩
  · rw [hcode, List.append_assoc]
    nth_rewrite 1 [← List.take_append_drop a (assemble is)]
    rw [hrest]
    simp [assemble]
  · rw [List.length_take]
    omega

end Birokrasi.Bytecode

namespace Birokrasi.Machine

open Birokrasi.Bytecode
open Birokrasi.Structured (Program)

theorem walk_numberPush {p : Program} {m : Machine} {a : Nat} {i : Instr} {w : Value}
    (hm : Holds (compile p) m) (hpc : m.pc = a) (hi : (a, i) ∈ numberPushes p)
    (hw : (compile p).constants[i.operand]? = some w) :
    Walk [a] m { m with pc := (a + 3 : Nat), steps := m.steps + 1, stack := w :: m.stack } := by
  obtain ⟨hmem, hpush⟩ := List.mem_filter.1 hi
  obtain ⟨op, operand⟩ := i
  simp only [Instr.pushesNumber, Bool.and_eq_true, decide_eq_true_eq] at hpush
  obtain ⟨rfl, hsmall⟩ := hpush
  have hmark : stringMark = 0x8000 := rfl
  have hcode : m.code.toList = assemble (instructions p).1 := by rw [hm.code]; rfl
  have hpooled : m.pooled operand = some w := by
    rw [pooled, if_neg (by omega), hm.constants]
    simpa using hw
  exact Walk.push (codeAt_of_mem_located hcode hmem) hpc hm.traced (by omega) hpooled

/-- Every literal of a program that is emitted has one push, in the order of the literals. It pushes the
first literal of the program that is equal, which is the literal itself, or an integer for a double or a
double for an integer, or the other zero. So all literals are pushed as they are exactly if no two of them
have one value and differ. -/
theorem literal_pushes (p : Program) (h : (compile p).code.length ≤ 65535) :
    let literals := bodyNumerals p.body
    (numberPushes p).length = literals.length ∧
    (∀ {k a : Nat} {v : Value} {i : Instr}, literals[k]? = some v → (numberPushes p)[k]? = some (a, i) →
      ∃ w, literals.find? (·.same v) = some w ∧ w.same v = true ∧ (w = v ∨ Mixed w v) ∧
        ∀ m : Machine, Holds (compile p) m → m.pc = a →
          Walk [a] m { m with pc := (a + 3 : Nat), steps := m.steps + 1, stack := w :: m.stack }) ∧
    ((∀ v ∈ literals, literals.find? (·.same v) = some v) ↔
      ∀ u ∈ literals, ∀ v ∈ literals, ¬ Mixed u v) := by
  intro literals
  have hfew := length_constants_compile h
  have hall (v : Value) (hv : v ∈ literals) : IsNumeral v := isNumeral_of_mem hv
  refine ⟨?_, fun {k a v i} hv hi => ?_, all_first_iff hall⟩
  · have hlength := congrArg List.length (pushedIds_instructions p hfew)
    rw [← map_operand_numberPushes] at hlength
    simpa using hlength
  · obtain ⟨w, -, hfind, hcases⟩ := exists_first hall (List.mem_of_getElem? hv)
    have hw := (getElem?_numberPushes hfew hv hi).trans hfind
    have hsame : w.same v = true := List.find?_some (p := fun x : Value => x.same v) hfind
    exact ⟨w, hfind, hsame, hcases, fun m hm hpc =>
      walk_numberPush hm hpc (List.mem_of_getElem? hi) hw⟩

/-- Reports a one with a point, and then one without. -/
def twoOnes : Program := ⟨[.report 1 "1.0", .report 2 "1"]⟩

theorem bodyNumerals_twoOnes : bodyNumerals twoOnes.body = [.float 1.0, .int 1] := by
  simp only [twoOnes, bodyNumerals, stmtNumerals]
  rw [exprNumerals, exprNumerals]
  rfl

/-- A machine that is going to push the second one. -/
def secondOne : Machine := { start .plain (compile twoOnes) 1 100 false with pc := 4 }

theorem literal_pushes_twoOnes :
    (compile twoOnes).code.length ≤ 65535 ∧ bodyNumerals twoOnes.body = [.float 1.0, .int 1] ∧
    numberPushes twoOnes = [(0, ⟨.push, 0⟩), (4, ⟨.push, 0⟩)] ∧
    Walk [4] secondOne
      { secondOne with pc := (7 : Nat), steps := secondOne.steps + 1, stack := [.float 1.0] } := by
  have hcode : (compile twoOnes).code.length ≤ 65535 := by decide +kernel
  have hpushes : numberPushes twoOnes = [(0, ⟨.push, 0⟩), (4, ⟨.push, 0⟩)] := by decide +kernel
  have hsecond : (bodyNumerals twoOnes.body)[1]? = some (.int 1) := by rw [bodyNumerals_twoOnes]; rfl
  have haddress : (numberPushes twoOnes)[1]? = some (4, ⟨.push, 0⟩) := by rw [hpushes]; rfl
  obtain ⟨w, hfind, -, -, hwalk⟩ := (literal_pushes twoOnes hcode).2.1 hsecond haddress
  have hfirst : (bodyNumerals twoOnes.body).find? (·.same (.int 1)) = some (.float 1.0) := by
    rw [bodyNumerals_twoOnes]
    rfl
  cases hfind.symm.trans hfirst
  exact ⟨hcode, bodyNumerals_twoOnes, hpushes, hwalk secondOne ⟨⟨rfl, rfl, rfl⟩, rfl⟩ rfl⟩

/-- A one without a point is printed with a point. -/
theorem literal_kind_lost :
    Program.ofLines ["lapor 1.0", "lapor 1"] = .ok twoOnes ∧
    bodyNumerals twoOnes.body = [.float 1.0, .int 1] ∧
    (run (.float 0.0) false (start .plain (compile twoOnes) 1 100 false)).2.printed =
      #["1.0\n", "1.0\n"] :=
  ⟨rfl, bodyNumerals_twoOnes, by decide +kernel⟩

end Birokrasi.Machine
