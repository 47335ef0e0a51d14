import Birokrasi.Bytecode.Compiler
import Birokrasi.Proofs.Cutting

/-!
# What compiling does to the pools

Compiling any program only adds to the pools, and it counts the bytes of the instructions that it
returns: `emitting_compileExpr` and `emitting_compileStmt`. Because a pool gets at most one entry for
three bytes of code, a program whose code can be addressed has few entries (`Builder.Sound`); no two
names share a slot, and all constants are numerals.
-/

namespace Birokrasi.Table

variable {κ α : Type} [DecidableEq κ]

theorem length_put_of_get?_eq_none {key : κ} {value : α} {t : Table κ α} (h : t.get? key = none) :
    (t.put key value).length = t.length + 1 := by
  have hkeys := congrArg List.length (keys_put key value t)
  simpa [keys, has, h] using hkeys

end Birokrasi.Table

namespace Birokrasi.Bytecode

open Birokrasi.Structured (Stmt Program)
open Birokrasi.Text

/-! ## Pools that grow -/

/-- Slots below their number, each with one name. -/
structure DistinctSlots (slots : Table String Nat) : Prop where
  lt : ∀ {name : String} {i : Nat}, slots.get? name = some i → i < slots.length
  unique : ∀ {name other : String} {i : Nat},
    slots.get? name = some i → slots.get? other = some i → name = other

/-- Integers and doubles. -/
def IsNumeral : Value → Prop
  | .int _ | .float _ => True
  | _ => False

/-- Pools with at most one entry for three bytes of code. -/
structure Builder.Sound (b : Builder) : Prop where
  constants : 3 * b.constants.length ≤ b.size
  strings : 3 * b.strings.length ≤ b.size
  slots : 3 * b.slots.length ≤ b.size
  distinct : DistinctSlots b.slots
  numerals : ∀ v ∈ b.constants, IsNumeral v

theorem sound_empty : Builder.Sound {} :=
  ⟨Nat.le_refl _, Nat.le_refl _, Nat.le_refl _, ⟨nofun, nofun⟩, nofun⟩

/-- The pools of `b'` hold those of `b`, every entry under its number, and there is no less code. -/
structure Builder.Within (b b' : Builder) : Prop where
  size : b.size ≤ b'.size
  constants : b.constants <+: b'.constants
  strings : b.strings <+: b'.strings
  slots : ∀ {name : String} {i : Nat}, b.slots.get? name = some i → b'.slots.get? name = some i

namespace Builder.Within

theorem refl (b : Builder) : b.Within b :=
  ⟨Nat.le_refl _, List.prefix_refl _, List.prefix_refl _, id⟩

theorem trans {b b' b'' : Builder} (h : b.Within b') (h' : b'.Within b'') : b.Within b'' :=
  ⟨Nat.le_trans h.size h'.size, h.constants.trans h'.constants, h.strings.trans h'.strings,
    fun hs => h'.slots (h.slots hs)⟩

end Builder.Within

theorem DistinctSlots.put {slots : Table String Nat} {name : String} (h : DistinctSlots slots)
    (hnew : slots.get? name = none) : DistinctSlots (slots.put name slots.length) where
  lt {other i} hi := by
    rw [Table.length_put_of_get?_eq_none hnew]
    rw [Table.get?_put] at hi
    split at hi
    · obtain rfl := Option.some.inj hi
      exact Nat.lt_succ_self _
    · exact Nat.lt_succ_of_lt (h.lt hi)
  unique {x y i} hx hy := by
    rw [Table.get?_put] at hx hy
    split at hx <;> split at hy
    · simp_all
    · obtain rfl := Option.some.inj hx
      exact absurd (h.lt hy) (Nat.lt_irrefl _)
    · obtain rfl := Option.some.inj hy
      exact absurd (h.lt hx) (Nat.lt_irrefl _)
    · exact h.unique hx hy

/-- At most one entry more in each pool, and no code. -/
structure Pools (b b' : Builder) : Prop where
  size : b'.size = b.size
  within : b.Within b'
  constants : b'.constants.length ≤ b.constants.length + 1
  strings : b'.strings.length ≤ b.strings.length + 1
  slots : b'.slots.length ≤ b.slots.length + 1
  distinct : DistinctSlots b.slots → DistinctSlots b'.slots
  numerals : (∀ v ∈ b.constants, IsNumeral v) → ∀ v ∈ b'.constants, IsNumeral v

theorem Pools.refl (b : Builder) : Pools b b :=
  ⟨rfl, .refl b, Nat.le_succ _, Nat.le_succ _, Nat.le_succ _, id, id⟩

theorem run_constantId (v : Value) (b : Builder) :
    (constantId v).run b = match b.constants.findIdx? fun w => w.same v with
      | some i => (i, b)
      | none => (b.constants.length, { b with constants := b.constants ++ [v] }) := by
  rw [constantId]
  simp only [StateT.run_bind, StateT.run_get, pure_bind]
  cases b.constants.findIdx? fun w => w.same v <;> rfl

theorem run_stringId (s : String) (b : Builder) :
    (stringId s).run b = match b.strings.findIdx? fun t => t = s with
      | some i => (i, b)
      | none => (b.strings.length, { b with strings := b.strings ++ [s] }) := by
  rw [stringId]
  simp only [StateT.run_bind, StateT.run_get, pure_bind]
  cases b.strings.findIdx? fun t => t = s <;> rfl

theorem run_slotOf (name : String) (b : Builder) :
    (slotOf name).run b = match b.slots.get? name with
      | some i => (i, b)
      | none => (b.slots.length, { b with slots := b.slots.put name b.slots.length }) := by
  rw [slotOf]
  simp only [StateT.run_bind, StateT.run_get, pure_bind]
  cases b.slots.get? name <;> rfl

theorem pools_constantId {v : Value} (hv : IsNumeral v) (b : Builder) :
    Pools b ((constantId v).run b).2 := by
  rw [run_constantId]
  split
  · exact .refl b
  · refine ⟨rfl, ⟨Nat.le_refl _, List.prefix_append _ _, List.prefix_refl _, id⟩, by simp,
      Nat.le_succ _, Nat.le_succ _, id, fun h => ?_⟩
    exact List.forall_mem_append.2 ⟨h, List.forall_mem_singleton.2 hv⟩

theorem pools_stringId (s : String) (b : Builder) : Pools b ((stringId s).run b).2 := by
  rw [run_stringId]
  split
  · exact .refl b
  · exact ⟨rfl, ⟨Nat.le_refl _, List.prefix_refl _, List.prefix_append _ _, id⟩, Nat.le_succ _,
      by simp, Nat.le_succ _, id, id⟩

theorem pools_slotOf (name : String) (b : Builder) : Pools b ((slotOf name).run b).2 := by
  rw [run_slotOf]
  split
  · exact .refl b
  next hnew =>
    refine ⟨rfl, ⟨Nat.le_refl _, List.prefix_refl _, List.prefix_refl _, fun {x i} hi => ?_⟩,
      Nat.le_succ _, Nat.le_succ _, Nat.le_of_eq (Table.length_put_of_get?_eq_none hnew),
      fun h => h.put hnew, id⟩
    rw [Table.get?_put, if_neg]
    · exact hi
    · rintro rfl
      simp [hnew] at hi

/-! ## Code that is counted -/

/-- Instructions come to `b`: their bytes are counted, and the pools only grow. -/
structure Emits (b : Builder) (is : List Instr) (b' : Builder) : Prop where
  size : b'.size = b.size + (assemble is).length
  within : b.Within b'
  sound : b.Sound → b'.Sound

/-- A step of compiling that counts the bytes of the instructions it returns. -/
def Emitting (act : Emit (List Instr)) : Prop := ∀ b, Emits b (act.run b).1 (act.run b).2

theorem Emits.nil (b : Builder) : Emits b [] b := ⟨rfl, .refl b, id⟩

theorem Emits.append {b b' b'' : Builder} {is js : List Instr} (h : Emits b is b')
    (h' : Emits b' js b'') : Emits b (is ++ js) b'' where
  size := by rw [h'.size, h.size, assemble_append, List.length_append, Nat.add_assoc]
  within := h.within.trans h'.within
  sound hb := h'.sound (h.sound hb)

/-- Two steps of compiling, one after the other. -/
theorem run_append {x y : Emit (List Instr)} {b b₁ b₂ : Builder} {is js : List Instr}
    (hx : x.run b = (is, b₁)) (hy : y.run b₁ = (js, b₂)) :
    (do let is ← x; return is ++ (← y) : Emit (List Instr)).run b = (is ++ js, b₂) := by
  rw [StateT.run_bind, hx]
  exact congrArg (fun r : List Instr × Builder => (is ++ r.1, r.2)) hy

@[simp] theorem length_assemble_singleton (i : Instr) : (assemble [i]).length = i.size := by
  simp [assemble]

/-- One instruction, after entries that it may refer to. -/
theorem Emits.instr {b b₁ : Builder} (i : Instr) (h : Pools b b₁) (hi : i.size = 3) :
    Emits b [i] { b₁ with size := b₁.size + 3 } where
  size := by rw [length_assemble_singleton, hi, h.size]
  within := h.within.trans ⟨Nat.le_add_right _ _, List.prefix_refl _, List.prefix_refl _, id⟩
  sound hb := by
    have := h.constants
    have := h.strings
    have := h.slots
    have := h.size
    refine ⟨?_, ?_, ?_, h.distinct hb.distinct, h.numerals hb.numerals⟩
    · have := hb.constants
      dsimp only
      omega
    · have := hb.strings
      dsimp only
      omega
    · have := hb.slots
      dsimp only
      omega

/-- One instruction that refers to nothing new. -/
theorem emitting_emit (op : Opcode) (operand : Nat) : Emitting (emit op operand) := by
  intro b
  refine ⟨(congrArg (b.size + ·) (length_assemble_singleton _)).symm,
    ⟨Nat.le_add_right _ _, List.prefix_refl _, List.prefix_refl _, id⟩, fun hb => ?_⟩
  exact ⟨Nat.le_add_right_of_le hb.constants, Nat.le_add_right_of_le hb.strings,
    Nat.le_add_right_of_le hb.slots, hb.distinct, hb.numerals⟩

theorem size_of_alwaysWide {op : Opcode} (h : Instr.alwaysWide op) (operand : Nat) :
    Instr.size ⟨op, operand⟩ = 3 := by
  simp [Instr.size, Instr.wide, h]

theorem run_emit_of_alwaysWide {op : Opcode} (h : Instr.alwaysWide op) (operand : Nat)
    (b : Builder) : (emit op operand).run b = ([⟨op, operand⟩], { b with size := b.size + 3 }) := by
  show ([_], { b with size := b.size + Instr.size _ }) = _
  rw [size_of_alwaysWide h]

/-- An instruction whose operand is the number of an entry. -/
theorem run_emit_pooled (op : Opcode) (hop : Instr.alwaysWide op) (f : Nat → Nat) {ids : Emit Nat}
    {b b₁ : Builder} {i : Nat} (h : ids.run b = (i, b₁)) :
    (do emit op (f (← ids)) : Emit (List Instr)).run b =
      ([⟨op, f i⟩], { b₁ with size := b₁.size + 3 }) := by
  rw [StateT.run_bind, h]
  exact run_emit_of_alwaysWide hop _ _

theorem emitting_pooled {op : Opcode} (hop : Instr.alwaysWide op) (f : Nat → Nat) {ids : Emit Nat}
    (h : ∀ b, Pools b (ids.run b).2) : Emitting (do emit op (f (← ids))) := by
  intro b
  have hpools := h b
  obtain ⟨i, b₁, hid⟩ : ∃ i b₁, ids.run b = (i, b₁) := ⟨_, _, rfl⟩
  rw [hid] at hpools
  rw [run_emit_pooled op hop f hid]
  exact .instr _ hpools (size_of_alwaysWide hop _)

theorem emitting_emitString (s : String) : Emitting (emitString s) :=
  emitting_pooled rfl ((· ||| stringMark)) (pools_stringId s)

theorem emitting_pushConstant {v : Value} (hv : IsNumeral v) :
    Emitting (do emit .push (← constantId v)) :=
  emitting_pooled rfl id (pools_constantId hv)

theorem isNumeral_of_numeral? {s : List Char} {v : Value} (h : numeral? s = some v) :
    IsNumeral v := by
  rw [numeral?] at h
  split at h
  · obtain ⟨x, -, rfl⟩ := Option.map_eq_some_iff.1 h
    trivial
  · obtain ⟨n, -, rfl⟩ := Option.map_eq_some_iff.1 h
    trivial

theorem emitting_compileExpr (text : List Char) : Emitting (compileExpr text) := by
  fun_induction compileExpr text with
  | case1 text s hquoted => exact emitting_emitString _
  | case2 text s hquoted v hnumeral => exact emitting_pushConstant (isNumeral_of_numeral? hnumeral)
  | case3 text s hquoted hnumeral hvariable => exact emitting_pooled rfl id (pools_slotOf _)
  | case4 text s hquoted hnumeral hvariable op left right hop _ _ hleft hright =>
    exact fun b => ((hleft b).append (hright _)).append (emitting_emit op 0 _)
  | case5 => exact .nil

mutual

theorem emitting_compileStmt : (s : Stmt) → Emitting (compileStmt s)
  | .block _ body => by
    rw [compileStmt]
    exact emitting_compileBody body
  | .assign _ name expr => fun b => by
    rw [compileStmt]
    exact (emitting_compileExpr expr.toList b).append
      (emitting_pooled rfl id (pools_slotOf name) _)
  | .report _ expr => fun b => by
    rw [compileStmt]
    exact (emitting_compileExpr expr.toList b).append (emitting_emit _ _ _)
  | .embezzle _ percent => fun b => by
    rw [compileStmt]
    exact (emitting_compileExpr percent.toList b).append (emitting_emit _ _ _)
  | .stall _ info => fun b => by
    rw [compileStmt]
    exact (emitting_emitString info b).append (emitting_emit _ _ _)
  | .meeting _ count body => fun b => by
    rw [compileStmt]
    exact ((emitting_compileExpr count.toList b).append (emitting_compileBody body _)).append
      (emitting_emit _ _ _)
  | .branch _ condition body _ => fun b => by
    rw [compileStmt]
    have hvalue := emitting_compileExpr condition.toList b
    refine Emits.append (Emits.append hvalue ?_) (emitting_compileBody body _)
    exact .instr _ (.refl _) (size_of_alwaysWide rfl _)
  | .attempt .. => fun b => by
    rw [compileStmt]
    exact .nil b
  | .procedure .. => fun b => by
    rw [compileStmt]
    exact .nil b
  | .call .. => fun b => by
    rw [compileStmt]
    exact .nil b
  | .unknown _ => fun b => by
    rw [compileStmt]
    exact .nil b

theorem emitting_compileBody : (body : List Stmt) → Emitting (compileBody body)
  | [] => fun b => by
    rw [compileBody]
    exact .nil b
  | s :: rest => fun b => by
    rw [compileBody]
    exact (emitting_compileStmt s b).append (emitting_compileBody rest _)

end

theorem emits_instructions (p : Program) : Emits {} (instructions p).1 (instructions p).2 :=
  (emitting_compileBody p.body {}).append (emitting_emit .finish 0 _)

theorem sound_instructions (p : Program) : (instructions p).2.Sound :=
  (emits_instructions p).sound sound_empty

theorem size_instructions (p : Program) : (instructions p).2.size = (compile p).code.length :=
  (emits_instructions p).size.trans (Nat.zero_add _)

/-! ## Numbers of entries -/

theorem getElem?_of_prefix {α : Type} {l l' : List α} (h : l <+: l') {i : Nat} {a : α}
    (hi : l[i]? = some a) : l'[i]? = some a := by
  obtain ⟨rest, rfl⟩ := h
  exact List.getElem?_append_left (List.getElem?_eq_some_iff.1 hi).1 ▸ hi

theorem or_stringMark {i : Nat} (h : i < 0x8000) : i ||| stringMark = i + 0x8000 := by
  have hor := Nat.two_pow_add_eq_or_of_lt (i := 15) h 1
  rw [Nat.or_comm, Nat.add_comm]
  exact hor.symm

theorem get?_slotOf (name : String) (b : Builder) :
    ((slotOf name).run b).2.slots.get? name = some ((slotOf name).run b).1 := by
  rw [run_slotOf]
  split
  next h => exact h
  · rw [Table.get?_put, if_pos rfl]

theorem getElem?_stringId (s : String) (b : Builder) :
    ((stringId s).run b).2.strings[((stringId s).run b).1]? = some s := by
  rw [run_stringId]
  split
  next i h =>
    obtain ⟨hi, hs, -⟩ := List.findIdx?_eq_some_iff_getElem.1 h
    rw [List.getElem?_eq_getElem hi]
    simpa using hs
  · simp

/-- A pool of integers. -/
def IntPool (b : Builder) : Prop := ∀ v ∈ b.constants, ∃ n, v = .int n

theorem eq_of_same_int {k n : Int} (h : (Value.int k).same (.int n)) : k = n := by
  simpa [Value.same, Value.equalAs, Value.number?, Number.equal, Number.compare?] using h

/-- In a pool of integers, the number of an integer is that of itself. -/
theorem getElem?_constantId {b : Builder} (h : IntPool b) (n : Int) :
    ((constantId (.int n)).run b).2.constants[((constantId (.int n)).run b).1]? =
      some (.int n) := by
  rw [run_constantId]
  split
  next i hfind =>
    obtain ⟨hi, hs, -⟩ := List.findIdx?_eq_some_iff_getElem.1 hfind
    obtain ⟨k, hk⟩ := h _ (List.getElem_mem hi)
    rw [List.getElem?_eq_getElem hi, hk]
    rw [hk] at hs
    rw [eq_of_same_int hs]
  · simp

/-- A step of compiling that pools no constant but integers. -/
def KeepsInts (act : Emit (List Instr)) : Prop := ∀ b, IntPool b → IntPool (act.run b).2

theorem keepsInts_emitString (s : String) : KeepsInts (emitString s) := by
  intro b hb
  show IntPool { ((stringId s).run b).2 with size := _ }
  rw [run_stringId]
  split <;> exact hb

theorem IntPool.constantId {b : Builder} (h : IntPool b) (n : Int) :
    IntPool ((constantId (.int n)).run b).2 := by
  rw [run_constantId]
  split
  · exact h
  · intro v hv
    obtain hv | hv := List.mem_append.1 hv
    · exact h v hv
    · exact ⟨n, by simpa using hv⟩

theorem IntPool.slotOf {b : Builder} (h : IntPool b) (name : String) :
    IntPool ((slotOf name).run b).2 := by
  rw [run_slotOf]
  split <;> exact h

theorem numeral?_of_no_point {s : List Char} (h : '.' ∉ s) :
    numeral? s = (Decimal.readInt s).toOption.map .int := by
  have hc : s.contains '.' = false := by simpa using h
  rw [numeral?, hc]
  rfl

theorem eq_append_of_operator? {s left right : List Char} {op : Opcode}
    (h : operator? s = some (op, left, right)) : ∃ sep, s = left ++ sep ++ right := by
  obtain ⟨sign, -, hc⟩ := exists_sign_of_operator? h
  exact ⟨sign, cut?_eq_some hc⟩

/-- An expression without a point has no constants but integers. -/
theorem keepsInts_compileExpr {text : List Char} (h : '.' ∉ text) :
    KeepsInts (compileExpr text) := by
  fun_induction compileExpr text with
  | case1 text s hquoted => exact keepsInts_emitString _
  | case2 text s hquoted v hnumeral =>
    rw [numeral?_of_no_point fun hm => h (mem_of_mem_trim hm)] at hnumeral
    obtain ⟨n, -, rfl⟩ := Option.map_eq_some_iff.1 hnumeral
    exact fun b hb => hb.constantId n
  | case3 text s hquoted hnumeral hvariable => exact fun b hb => hb.slotOf _
  | case4 text s hquoted hnumeral hvariable op left right hop _ _ hleft hright =>
    obtain ⟨sep, hs⟩ := eq_append_of_operator? hop
    have hsides : '.' ∉ left ++ sep ++ right := by
      rw [← hs]
      exact fun hm => h (mem_of_mem_trim hm)
    have hl : '.' ∉ left := fun hm => hsides (by simp [hm])
    have hr : '.' ∉ right := fun hm => hsides (by simp [hm])
    exact fun b hb => hright hr _ (hleft hl b hb)
  | case5 => exact fun b hb => hb

end Birokrasi.Bytecode
