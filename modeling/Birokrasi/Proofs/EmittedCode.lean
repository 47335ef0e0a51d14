import Birokrasi.Proofs.Building

/-!
# The code that is emitted

Addresses are known only while code is emitted: a meeting goes back to where its body was begun, and a
branch gets its target after its body. What compiling returns is still placed (`Placed`): at the place
where the code has come to, every jump of it leads forward to an instruction or to its end, and every
meeting back to an instruction. Code that is placed can be put together, and the finished code has no
jump to its end, because one more instruction follows (`compile_wellFormed`).
-/

namespace Birokrasi.Table

variable {κ α β : Type} [DecidableEq κ]

theorem get?_map (f : α → β) (key : κ) (t : Table κ α) :
    Table.get? key (t.map fun e => (e.1, f e.2)) = (t.get? key).map f := by
  induction t with
  | nil => rfl
  | cons e rest ih =>
    obtain ⟨k, v⟩ := e
    by_cases hk : k = key
    · simp [get?, hk]
    · simp [get?, hk, ih]

end Birokrasi.Table

namespace Birokrasi.Bytecode

open Birokrasi.Structured (Stmt Program)
open Birokrasi.Text

/-! ## Addresses -/

/-- Instructions with their addresses, of which the first is `start`. -/
def located (start : Nat) : List Instr → List (Nat × Instr)
  | [] => []
  | i :: is => (start, i) :: located (start + i.size) is

section Addresses

variable {start a : Nat} {i : Instr} {is js : List Instr}

@[simp] theorem length_assemble_cons : (assemble (i :: is)).length = i.size + (assemble is).length := by
  simp [assemble]

@[simp] theorem located_append :
    located start (is ++ js) =
      located start is ++ located (start + (assemble is).length) js := by
  induction is generalizing start with
  | nil => rfl
  | cons i is ih => simp [located, ih, Nat.add_assoc]

theorem mem_of_mem_located (h : (a, i) ∈ located start is) : i ∈ is := by
  induction is generalizing start with
  | nil => cases h
  | cons j is ih =>
    rcases List.mem_cons.1 h with heq | h
    · cases heq
      exact List.mem_cons_self
    · exact List.mem_cons_of_mem j (ih h)

theorem exists_mem_located (start : Nat) (h : i ∈ is) : ∃ a, (a, i) ∈ located start is := by
  induction is generalizing start with
  | nil => cases h
  | cons j is ih =>
    rcases List.mem_cons.1 h with rfl | h
    · exact ⟨start, List.mem_cons_self⟩
    · obtain ⟨a, ha⟩ := ih (start + j.size) h
      exact ⟨a, List.mem_cons_of_mem _ ha⟩

/-- The bytes of an instruction stand at its address. -/
theorem exists_drop_assemble (h : (a, i) ∈ located start is) :
    start ≤ a ∧ ∃ rest, (assemble is).drop (a - start) = i.bytes ++ rest := by
  induction is generalizing start with
  | nil => cases h
  | cons j is ih =>
    rcases List.mem_cons.1 h with heq | h
    · cases heq
      exact ⟨Nat.le_refl _, assemble is, by simp [assemble]⟩
    · obtain ⟨hle, rest, hrest⟩ := ih h
      refine ⟨by omega, rest, ?_⟩
      have hsplit : a - start = j.bytes.length + (a - (start + j.size)) := by
        rw [Instr.length_bytes]
        omega
      rw [hsplit, ← hrest]
      exact List.drop_length_add_append _

theorem size_pos (i : Instr) : 0 < i.size := by
  unfold Instr.size
  split <;> omega

theorem lt_of_mem_located (h : (a, i) ∈ located start is) : a < start + (assemble is).length := by
  obtain ⟨hle, rest, hrest⟩ := exists_drop_assemble h
  have hlen := congrArg List.length hrest
  have hpos := size_pos i
  simp only [List.length_drop, List.length_append, Instr.length_bytes] at hlen
  omega

/-- Where an instruction starts, or where the last one ends. -/
def Boundary (start : Nat) (is : List Instr) (a : Nat) : Prop :=
  (∃ i, (a, i) ∈ located start is) ∨ a = start + (assemble is).length

theorem boundary_start (start : Nat) (is : List Instr) : Boundary start is start := by
  cases is with
  | nil => exact .inr rfl
  | cons i is => exact .inl ⟨i, List.mem_cons_self⟩

theorem boundary_end (start : Nat) (is : List Instr) :
    Boundary start is (start + (assemble is).length) :=
  .inr rfl

theorem Boundary.append_right (h : Boundary (start + (assemble is).length) js a) :
    Boundary start (is ++ js) a := by
  rcases h with ⟨i, hi⟩ | rfl
  · exact .inl ⟨i, by rw [located_append]; exact List.mem_append_right _ hi⟩
  · exact .inr (by rw [assemble_append, List.length_append, Nat.add_assoc])

theorem Boundary.append_left (h : Boundary start is a) : Boundary start (is ++ js) a := by
  rcases h with ⟨i, hi⟩ | rfl
  · exact .inl ⟨i, by rw [located_append]; exact List.mem_append_left _ hi⟩
  · -- The end of the first instructions is the start of the others.
    exact (boundary_start _ js).append_right

end Addresses

/-! ## Placed instructions -/

/-- What an instruction refers to by number is in the pools. -/
def Builder.Provides (b : Builder) (i : Instr) : Prop :=
  match i.op with
  | .push =>
    (∃ id < b.strings.length, i.operand = id ||| stringMark) ∨ i.operand < b.constants.length
  | .load | .store => ∃ name, b.slots.get? name = some i.operand
  | _ => True

theorem Builder.Provides.mono {b b' : Builder} {i : Instr} (h : b.Provides i) (hw : b.Within b') :
    b'.Provides i := by
  unfold Provides at h ⊢
  cases hop : i.op with
  | push =>
    rw [hop] at h
    rcases h with ⟨id, hlt, hid⟩ | hlt
    · exact .inl ⟨id, Nat.lt_of_lt_of_le hlt hw.strings.length_le, hid⟩
    · exact .inr (Nat.lt_of_lt_of_le hlt hw.constants.length_le)
  | load | store =>
    rw [hop] at h
    obtain ⟨name, hname⟩ := h
    exact ⟨name, hw.slots hname⟩
  | _ => trivial

/-- Whether an instruction is written with an operand exactly if its operation is read with one. -/
def Instr.Regular (i : Instr) : Prop := i.wide = carriesOperand i.op

/-- The operations that are emitted on their own. -/
def bareOperations : List Opcode :=
  [.print, .add, .sub, .mul, .div, .eq, .lt, .gt, .embezzle, .stall]

/-- The operations whose operand is the number of an entry. -/
def poolOperations : List Opcode := [.push, .load, .store]

/-- The operations of statements. -/
def stmtOperations : List Opcode := bareOperations ++ poolOperations ++ [.jumpIfFalse, .meeting]

theorem mem_stmtOperations {op : Opcode} (h : stmtOperations.contains op = true) :
    op ∈ stmtOperations :=
  List.contains_iff_mem.1 h

/-- Instructions of statements that can stand at `start`, among others, with the pools of `b`: all that
they refer to is there, jumps lead forward and meetings back, and only a meeting may have an operand
that is not expected. -/
structure Placed (b : Builder) (start : Nat) (is : List Instr) : Prop where
  known : ∀ i ∈ is, i.op ∈ stmtOperations
  provided : ∀ i ∈ is, b.Provides i
  regular : ∀ i ∈ is, i.op ≠ .meeting → i.Regular
  forward : ∀ {a i}, (a, i) ∈ located start is → i.op = .jumpIfFalse →
    a < i.operand ∧ Boundary start is i.operand
  backward : ∀ {a i}, (a, i) ∈ located start is → i.op = .meeting →
    i.operand ≤ a ∧ Boundary start is i.operand

section Placed

variable {b b' : Builder} {start : Nat} {is js : List Instr}

theorem Placed.mono (h : Placed b start is) (hw : b.Within b') : Placed b' start is :=
  ⟨h.known, fun i hi => (h.provided i hi).mono hw, h.regular, h.forward, h.backward⟩

theorem placed_nil : Placed b start [] := ⟨nofun, nofun, nofun, nofun, nofun⟩

theorem Placed.append (h : Placed b start is) (h' : Placed b (start + (assemble is).length) js) :
    Placed b start (is ++ js) where
  known := List.forall_mem_append.2 ⟨h.known, h'.known⟩
  provided := List.forall_mem_append.2 ⟨h.provided, h'.provided⟩
  regular := List.forall_mem_append.2 ⟨h.regular, h'.regular⟩
  forward {a i} hi hop := by
    rw [located_append] at hi
    rcases List.mem_append.1 hi with hi | hi
    · exact (h.forward hi hop).imp_right .append_left
    · exact (h'.forward hi hop).imp_right .append_right
  backward {a i} hi hop := by
    rw [located_append] at hi
    rcases List.mem_append.1 hi with hi | hi
    · exact (h.backward hi hop).imp_right .append_left
    · exact (h'.backward hi hop).imp_right .append_right

/-- One instruction that is neither a jump nor a meeting. -/
theorem placed_instr {i : Instr} (hknown : i.op ∈ stmtOperations) (hp : b.Provides i) (hr : i.Regular)
    (hjump : i.op ≠ .jumpIfFalse) (hmeeting : i.op ≠ .meeting) : Placed b start [i] where
  known := List.forall_mem_singleton.2 hknown
  provided := List.forall_mem_singleton.2 hp
  regular := List.forall_mem_singleton.2 fun _ => hr
  forward hi hop := by
    cases List.mem_singleton.1 hi
    exact absurd hop hjump
  backward hi hop := by
    cases List.mem_singleton.1 hi
    exact absurd hop hmeeting

/-- A body with the meeting that goes back to its start. -/
theorem Placed.meeting (h : Placed b start is) : Placed b start (is ++ [⟨.meeting, start⟩]) where
  known := List.forall_mem_append.2 ⟨h.known, List.forall_mem_singleton.2 (mem_stmtOperations rfl)⟩
  provided := List.forall_mem_append.2 ⟨h.provided, List.forall_mem_singleton.2 trivial⟩
  regular := List.forall_mem_append.2 ⟨h.regular, List.forall_mem_singleton.2 fun hop => absurd rfl hop⟩
  forward {a i} hi hop := by
    rw [located_append] at hi
    rcases List.mem_append.1 hi with hi | hi
    · exact (h.forward hi hop).imp_right .append_left
    · cases List.mem_singleton.1 hi
      cases hop
  backward {a i} hi hop := by
    rw [located_append] at hi
    rcases List.mem_append.1 hi with hi | hi
    · exact (h.backward hi hop).imp_right .append_left
    · cases List.mem_singleton.1 hi
      exact ⟨Nat.le_add_right _ _, boundary_start _ _⟩

/-- A body with the jump over it. -/
theorem Placed.branch (h : Placed b (start + 3) is) :
    Placed b start (⟨.jumpIfFalse, start + 3 + (assemble is).length⟩ :: is) := by
  have hsize : Instr.size ⟨.jumpIfFalse, start + 3 + (assemble is).length⟩ = 3 :=
    size_of_alwaysWide rfl _
  have hbody {a : Nat} (ha : Boundary (start + 3) is a) :
      Boundary start (⟨.jumpIfFalse, start + 3 + (assemble is).length⟩ :: is) a := by
    rw [← hsize, ← length_assemble_singleton] at ha
    exact ha.append_right
  refine ⟨List.forall_mem_cons.2 ⟨mem_stmtOperations rfl, h.known⟩,
    List.forall_mem_cons.2 ⟨trivial, h.provided⟩,
    List.forall_mem_cons.2 ⟨fun _ => ?_, h.regular⟩, fun {a i} hi hop => ?_, fun {a i} hi hop => ?_⟩
  · simp [Instr.Regular, Instr.wide, Instr.alwaysWide, carriesOperand]
  · rw [located, hsize] at hi
    rcases List.mem_cons.1 hi with heq | hi
    · cases heq
      exact ⟨by show start < start + 3 + _; omega, hbody (boundary_end _ _)⟩
    · exact (h.forward hi hop).imp_right hbody
  · rw [located, hsize] at hi
    rcases List.mem_cons.1 hi with heq | hi
    · cases heq
      cases hop
    · exact (h.backward hi hop).imp_right hbody

end Placed

/-! ## Compiling -/

/-- Instructions come to `b`: their bytes are counted, and they can stand where the code has come
to. -/
structure Lays (b : Builder) (is : List Instr) (b' : Builder) : Prop where
  emits : Emits b is b'
  placed : Placed b' b.size is

/-- A step of compiling that places the instructions it returns. -/
def Laying (act : Emit (List Instr)) : Prop := ∀ b, Lays b (act.run b).1 (act.run b).2

theorem Lays.nil (b : Builder) : Lays b [] b := ⟨.nil b, placed_nil⟩

theorem Lays.append {b b' b'' : Builder} {is js : List Instr} (h : Lays b is b')
    (h' : Lays b' js b'') : Lays b (is ++ js) b'' := by
  refine ⟨h.emits.append h'.emits, (h.placed.mono h'.emits.within).append ?_⟩
  rw [← h.emits.size]
  exact h'.placed

/-- A count, and a body with the meeting that goes back to its start. -/
theorem Lays.meeting {b b₁ b₂ : Builder} {is js : List Instr} (h : Lays b is b₁)
    (h' : Lays b₁ js b₂) :
    Lays b (is ++ js ++ [⟨.meeting, b₁.size⟩])
      { b₂ with size := b₂.size + Instr.size ⟨.meeting, b₁.size⟩ } := by
  have hemits := emitting_emit .meeting b₁.size b₂
  have hbody := (h'.placed.mono hemits.within).meeting
  refine ⟨(h.emits.append h'.emits).append hemits, ?_⟩
  rw [List.append_assoc]
  refine (h.placed.mono (h'.emits.within.trans hemits.within)).append ?_
  rw [← h.emits.size]
  exact hbody

/-- A condition, and a body with the jump over it, which was three bytes long before its target was
known. -/
theorem Lays.branch {b b₁ b₂ : Builder} {is js : List Instr} (h : Lays b is b₁)
    (h' : Lays { b₁ with size := b₁.size + 3 } js b₂) :
    Lays b (is ++ [⟨.jumpIfFalse, b₂.size⟩] ++ js) b₂ := by
  have hjump : Emits b₁ [⟨.jumpIfFalse, b₂.size⟩] { b₁ with size := b₁.size + 3 } :=
    .instr _ (.refl b₁) (size_of_alwaysWide rfl _)
  refine ⟨(h.emits.append hjump).append h'.emits, ?_⟩
  rw [List.append_assoc]
  refine (h.placed.mono (hjump.within.trans h'.emits.within)).append ?_
  rw [← h.emits.size]
  have hsize : b₂.size = b₁.size + 3 + (assemble js).length := h'.emits.size
  rw [hsize]
  exact h'.placed.branch

theorem laying_emit {op : Opcode} (h : op ∈ bareOperations) : Laying (emit op) := by
  intro b
  refine ⟨emitting_emit op 0 b, ?_⟩
  simp only [bareOperations, List.mem_cons, List.not_mem_nil, or_false] at h
  rcases h with rfl | rfl | rfl | rfl | rfl | rfl | rfl | rfl | rfl | rfl <;>
    exact placed_instr (mem_stmtOperations rfl) trivial rfl nofun nofun

/-- An instruction whose operand is the number of an entry. -/
theorem laying_pooled {op : Opcode} (hop : op ∈ poolOperations) (f : Nat → Nat) {ids : Emit Nat}
    (h : ∀ b, Pools b (ids.run b).2) (hp : ∀ b, (ids.run b).2.Provides ⟨op, f (ids.run b).1⟩) :
    Laying (do emit op (f (← ids))) := by
  intro b
  have hwide : Instr.alwaysWide op :=
    (by decide : ∀ op ∈ poolOperations, Instr.alwaysWide op) op hop
  refine ⟨emitting_pooled hwide f h b, ?_⟩
  have hp := hp b
  obtain ⟨i, b₁, hid⟩ : ∃ i b₁, ids.run b = (i, b₁) := ⟨_, _, rfl⟩
  rw [hid] at hp
  rw [run_emit_pooled op hwide f hid]
  have hw : b₁.Within { b₁ with size := b₁.size + 3 } :=
    ⟨Nat.le_add_right _ _, List.prefix_refl _, List.prefix_refl _, id⟩
  have hp := hp.mono hw
  simp only [poolOperations, List.mem_cons, List.not_mem_nil, or_false] at hop
  rcases hop with rfl | rfl | rfl <;>
    exact placed_instr (mem_stmtOperations rfl) hp (Bool.or_true _) nofun nofun

theorem laying_emitString (s : String) : Laying (emitString s) :=
  laying_pooled (by decide) (· ||| stringMark) (pools_stringId s) fun b =>
    .inl ⟨_, (List.getElem?_eq_some_iff.1 (getElem?_stringId s b)).1, rfl⟩

theorem constantId_lt (v : Value) (b : Builder) :
    ((constantId v).run b).1 < ((constantId v).run b).2.constants.length := by
  rw [run_constantId]
  split
  next i h => exact (List.findIdx?_eq_some_iff_getElem.1 h).1
  · simp

theorem laying_pushConstant {v : Value} (hv : IsNumeral v) :
    Laying (do emit .push (← constantId v)) :=
  laying_pooled (by decide) id (pools_constantId hv) fun b => .inr (constantId_lt v b)

theorem laying_load (name : String) : Laying (do emit .load (← slotOf name)) :=
  laying_pooled (by decide) id (pools_slotOf name) fun b => ⟨name, get?_slotOf name b⟩

theorem laying_store (name : String) : Laying (do emit .store (← slotOf name)) :=
  laying_pooled (by decide) id (pools_slotOf name) fun b => ⟨name, get?_slotOf name b⟩

theorem mem_bareOperations {s left right : List Char} {op : Opcode}
    (h : operator? s = some (op, left, right)) : op ∈ bareOperations := by
  have hall : ∀ o ∈ operators, o.2 ∈ bareOperations := by decide
  obtain ⟨sign, ho, -⟩ := exists_sign_of_operator? h
  exact hall _ ho

theorem laying_compileExpr (text : List Char) : Laying (compileExpr text) := by
  fun_induction compileExpr text with
  | case1 text s hquoted => exact laying_emitString _
  | case2 text s hquoted v hnumeral => exact laying_pushConstant (isNumeral_of_numeral? hnumeral)
  | case3 text s hquoted hnumeral hvariable => exact laying_load _
  | case4 text s hquoted hnumeral hvariable op left right hop _ _ hleft hright =>
    exact fun b => ((hleft b).append (hright _)).append (laying_emit (mem_bareOperations hop) _)
  | case5 => exact .nil

mutual

theorem laying_compileStmt : (s : Stmt) → Laying (compileStmt s)
  | .block _ body => by
    rw [compileStmt]
    exact laying_compileBody body
  | .assign _ name expr => fun b => by
    rw [compileStmt]
    exact (laying_compileExpr expr.toList b).append (laying_store name _)
  | .report _ expr => fun b => by
    rw [compileStmt]
    exact (laying_compileExpr expr.toList b).append (laying_emit (by decide) _)
  | .embezzle _ percent => fun b => by
    rw [compileStmt]
    exact (laying_compileExpr percent.toList b).append (laying_emit (by decide) _)
  | .stall _ info => fun b => by
    rw [compileStmt]
    exact (laying_emitString info b).append (laying_emit (by decide) _)
  | .meeting _ count body => fun b => by
    rw [compileStmt]
    exact (laying_compileExpr count.toList b).meeting (laying_compileBody body _)
  | .branch _ condition body _ => fun b => by
    rw [compileStmt]
    exact (laying_compileExpr condition.toList b).branch (laying_compileBody body _)
  | .attempt .. => fun b => by
    rw [compileStmt]
    exact .nil b
  | .procedure .. => fun b => by
    rw [compileStmt]
    exact .nil b
  | .call .. => fun b => by
    rw [compileStmt]
    exact .nil b
  | .unknown _ => fun b => by
    rw [compileStmt]
    exact .nil b

theorem laying_compileBody : (body : List Stmt) → Laying (compileBody body)
  | [] => fun b => by
    rw [compileBody]
    exact .nil b
  | s :: rest => fun b => by
    rw [compileBody]
    exact (laying_compileStmt s b).append (laying_compileBody rest _)

end

/-! ## Finished code -/

/-- The operand of two bytes after the operation at an address. -/
def operandAt (code : Bytes) (a : Nat) : Nat := ofLittleEndian ((code.drop (a + 1)).take 2)

/-- The code of an image is that of the instructions, and what they refer to is there. -/
structure WellFormed (image : Image) (is : List Instr) : Prop where
  code : image.code = assemble is
  /-- The last instruction is the only one that ends the program. -/
  last : ∃ front, is = front ++ [⟨.finish, 0⟩] ∧ ∀ i ∈ front, i.op ≠ .finish
  opcode : ∀ {a i}, (a, i) ∈ located 0 is → image.code[a]? = some i.op.byte
  /-- Operands have not lost any bits in the code. -/
  operand : ∀ {a i}, (a, i) ∈ located 0 is → i.wide → operandAt image.code a = i.operand
  text : ∀ {i}, i ∈ is → i.op = .push → stringMark ≤ i.operand →
    i.operand - stringMark < image.strings.length
  constant : ∀ {i}, i ∈ is → i.op = .push → i.operand < stringMark →
    i.operand < image.constants.length
  slot : ∀ {i}, i ∈ is → i.op = .load ∨ i.op = .store →
    ∃ name, image.slots.get? name = some (i.operand : Int)
  distinct : ∀ {name other id}, image.slots.get? name = some id →
    image.slots.get? other = some id → name = other
  /-- A jump leads to a later instruction. -/
  forward : ∀ {a i}, (a, i) ∈ located 0 is → i.op = .jumpIfFalse →
    a < i.operand ∧ i.operand < image.code.length ∧ ∃ j, (i.operand, j) ∈ located 0 is
  /-- A meeting goes back to an instruction that is not after it. -/
  backward : ∀ {a i}, (a, i) ∈ located 0 is → i.op = .meeting →
    i.operand ≤ a ∧ ∃ j, (i.operand, j) ∈ located 0 is

section Finished

variable {a : Nat} {i : Instr} {is : List Instr}

theorem getElem?_assemble (h : (a, i) ∈ located 0 is) : (assemble is)[a]? = some i.op.byte := by
  obtain ⟨-, rest, hrest⟩ := exists_drop_assemble h
  have hhead := congrArg List.head? hrest
  rw [List.head?_drop] at hhead
  exact hhead

theorem operandAt_assemble (h : (a, i) ∈ located 0 is) (hw : i.wide) (hlt : i.operand < 65536) :
    operandAt (assemble is) a = i.operand := by
  obtain ⟨-, rest, hrest⟩ := exists_drop_assemble h
  have hdrop : (assemble is).drop (a + 1) = littleEndian 2 i.operand ++ rest := by
    rw [← List.drop_drop, ← Nat.sub_zero a, hrest]
    simp [Instr.bytes, hw]
  rw [operandAt, hdrop, List.take_left' (length_littleEndian 2 _)]
  exact ofLittleEndian_littleEndian 2 _ hlt

end Finished

section Pools

variable {b : Builder} {i : Instr}

/-- Few enough entries that their numbers do not reach the mark of a text. -/
theorem Builder.Provides.push (h : b.Provides i) (hop : i.op = .push) (hb : b.Sound)
    (hsize : b.size ≤ 65535) :
    (stringMark ≤ i.operand ∧ i.operand - stringMark < b.strings.length) ∨
      (i.operand < stringMark ∧ i.operand < b.constants.length) := by
  have hstrings := hb.strings
  have hconstants := hb.constants
  unfold Provides at h
  rw [hop] at h
  unfold stringMark
  rcases h with ⟨id, hlt, hid⟩ | hlt
  · rw [or_stringMark (by omega)] at hid
    omega
  · omega

theorem Builder.Provides.slot (h : b.Provides i) (hop : i.op = .load ∨ i.op = .store) :
    ∃ name, b.slots.get? name = some i.operand := by
  unfold Provides at h
  rcases hop with hop | hop <;> rwa [hop] at h

/-- Operands of instructions with addresses below 65536 are below 65536. -/
theorem Placed.operand_lt {is : List Instr} {a : Nat} (h : Placed b 0 is) (hb : b.Sound)
    (hsize : b.size ≤ 65535) (hlength : (assemble is).length ≤ 65535) (hi : (a, i) ∈ located 0 is)
    (hw : i.wide) : i.operand < 65536 := by
  have hmem := mem_of_mem_located hi
  have hlt := lt_of_mem_located hi
  have hknown := h.known i hmem
  simp only [stmtOperations, List.mem_append, List.mem_cons, List.not_mem_nil, or_false] at hknown
  rcases hknown with (hbare | hpool) | hjump | hmeeting
  · -- Operations on their own have no operand.
    have hnone : ∀ op ∈ bareOperations, op ≠ .meeting ∧ carriesOperand op = false := by decide
    obtain ⟨hne, hnot⟩ := hnone _ hbare
    have hregular : i.wide = carriesOperand i.op := h.regular i hmem hne
    rw [hregular, hnot] at hw
    cases hw
  · simp only [poolOperations, List.mem_cons, List.not_mem_nil, or_false] at hpool
    rcases hpool with hpush | hslot
    · have hstrings := hb.strings
      have hmark : stringMark = 32768 := rfl
      rcases (h.provided i hmem).push hpush hb hsize with hp | hp <;> omega
    · obtain ⟨name, hname⟩ := (h.provided i hmem).slot hslot
      have hfew := hb.slots
      have hid := hb.distinct.lt hname
      omega
  · rcases (h.forward hi hjump).2 with ⟨j, hj⟩ | hend
    · have := lt_of_mem_located hj
      omega
    · omega
  · have := (h.backward hi hmeeting).1
    omega

end Pools

section Ended

variable {b : Builder} {is : List Instr} {i : Instr} {a : Nat}

/-- The instructions of statements are those before the last one. -/
theorem mem_located_of_ended (h : (a, i) ∈ located 0 (is ++ [⟨.finish, 0⟩])) (hop : i.op ≠ .finish) :
    (a, i) ∈ located 0 is := by
  rw [located_append] at h
  rcases List.mem_append.1 h with h | h
  · exact h
  · cases List.mem_singleton.1 h
    exact absurd rfl hop

theorem mem_of_ended (h : i ∈ is ++ [⟨.finish, 0⟩]) (hop : i.op ≠ .finish) : i ∈ is := by
  obtain ⟨a, ha⟩ := exists_mem_located 0 h
  exact mem_of_mem_located (mem_located_of_ended ha hop)

/-- Before the last instruction, even the end is the address of an instruction. -/
theorem Boundary.ended (h : Boundary 0 is a) : ∃ j, (a, j) ∈ located 0 (is ++ [⟨.finish, 0⟩]) := by
  rw [located_append]
  rcases h with ⟨j, hj⟩ | rfl
  · exact ⟨j, List.mem_append_left _ hj⟩
  · exact ⟨_, List.mem_append_right _ List.mem_cons_self⟩

theorem Placed.op_ne_finish (h : Placed b 0 is) (hi : i ∈ is) : i.op ≠ .finish := by
  have hnot : Opcode.finish ∉ stmtOperations := by decide
  intro hop
  exact hnot (hop ▸ h.known i hi)

theorem Placed.wellFormed {b' : Builder} (h : Placed b 0 is) (hb : b.Sound)
    (hsize : b.size = (assemble is).length) (hlength : (assemble is).length + 1 ≤ 65535)
    (hpools : b' = { b with size := b.size + 1 }) :
    WellFormed (b'.image (is ++ [⟨.finish, 0⟩])) (is ++ [⟨.finish, 0⟩]) := by
  subst hpools
  have hshort : b.size ≤ 65535 := by omega
  refine ⟨rfl, ⟨is, rfl, fun i => h.op_ne_finish⟩, getElem?_assemble, fun {a i} hi hw => ?_,
    fun {i} hi hop hmark => ?_, fun {i} hi hop hmark => ?_, fun {i} hi hop => ?_,
    fun {name other id} hx hy => ?_, fun {a i} hi hop => ?_, fun {a i} hi hop => ?_⟩
  · have hop : i.op ≠ .finish := by
      intro hop
      rw [located_append] at hi
      rcases List.mem_append.1 hi with hi | hi
      · exact h.op_ne_finish (mem_of_mem_located hi) hop
      · cases List.mem_singleton.1 hi
        cases hw
    have hlt := h.operand_lt hb hshort (by omega) (mem_located_of_ended hi hop) hw
    exact operandAt_assemble hi hw hlt
  · have hp := (h.provided i (mem_of_ended hi (by simp [hop]))).push hop hb hshort
    exact hp.elim (·.2) fun hp => absurd hmark (Nat.not_le_of_lt hp.1)
  · have hp := (h.provided i (mem_of_ended hi (by simp [hop]))).push hop hb hshort
    exact hp.elim (fun hp => absurd hp.1 (Nat.not_le_of_lt hmark)) (·.2)
  · obtain ⟨name, hname⟩ := (h.provided i (mem_of_ended hi (by
      rcases hop with hop | hop <;> simp [hop]))).slot hop
    exact ⟨name, by rw [Builder.image, Table.get?_map, hname]; rfl⟩
  · rw [Builder.image, Table.get?_map, Option.map_eq_some_iff] at hx hy
    obtain ⟨m, hm, rfl⟩ := hx
    obtain ⟨n, hn, hmn⟩ := hy
    cases hmn
    exact hb.distinct.unique hm hn
  · have hi := mem_located_of_ended hi (by simp [hop])
    obtain ⟨hlt, hto⟩ := h.forward hi hop
    obtain ⟨j, hj⟩ := hto.ended
    have hinside := lt_of_mem_located hj
    rw [Nat.zero_add] at hinside
    exact ⟨hlt, hinside, j, hj⟩
  · have hi := mem_located_of_ended hi (by simp [hop])
    obtain ⟨hle, hto⟩ := h.backward hi hop
    exact ⟨hle, hto.ended⟩

end Ended

theorem exists_placed (p : Program) :
    ∃ is b, instructions p = (is ++ [⟨.finish, 0⟩], { b with size := b.size + 1 }) ∧
      Placed b 0 is ∧ b.Sound ∧ b.size = (assemble is).length := by
  obtain ⟨is, b, hrun⟩ : ∃ is b, (compileBody p.body).run {} = (is, b) := ⟨_, _, rfl⟩
  have hlays := laying_compileBody p.body {}
  rw [hrun] at hlays
  refine ⟨is, b, run_append hrun rfl, hlays.placed, hlays.emits.sound sound_empty, ?_⟩
  rw [hlays.emits.size]
  exact Nat.zero_add _

/-- Compiled code of at most 65535 bytes is well formed, whatever the program. -/
theorem compile_wellFormed (p : Program) (h : (compile p).code.length ≤ 65535) :
    WellFormed (compile p) (instructions p).1 := by
  obtain ⟨is, b, hinstr, hplaced, hb, hsize⟩ := exists_placed p
  have himage : compile p = Builder.image { b with size := b.size + 1 } (is ++ [⟨.finish, 0⟩]) := by
    rw [compile, hinstr]
  have hlength : (assemble is).length + 1 = (compile p).code.length := by
    rw [himage, Builder.image, assemble_append, List.length_append]
    rfl
  rw [himage, hinstr]
  exact hplaced.wellFormed hb hsize (by omega) rfl

/-- A meeting without a count around a branch and another meeting, and a branch without a body. -/
def winding : Program where
  body :=
    [.meeting 1 "?"
        [.branch 2 "x == 1" [.report 3 "\"rapat\"", .meeting 4 "2" [.assign 5 "hari" "x + 1"]] []],
      .branch 8 "hari < 3" [] []]

theorem compile_wellFormed_winding :
    located 0 (instructions winding).1 =
        [(0, ⟨.load, 0⟩), (3, ⟨.push, 0⟩), (6, ⟨.eq, 0⟩), (7, ⟨.jumpIfFalse, 30⟩), (10, ⟨.push, 0x8000⟩),
          (13, ⟨.print, 0⟩), (14, ⟨.push, 1⟩), (17, ⟨.load, 0⟩), (20, ⟨.push, 0⟩), (23, ⟨.add, 0⟩),
          (24, ⟨.store, 1⟩), (27, ⟨.meeting, 17⟩), (30, ⟨.meeting, 0⟩), (31, ⟨.load, 1⟩),
          (34, ⟨.push, 2⟩), (37, ⟨.lt, 0⟩), (38, ⟨.jumpIfFalse, 41⟩), (41, ⟨.finish, 0⟩)] ∧
      (compile winding).code.length ≤ 65535 ∧
      WellFormed (compile winding) (instructions winding).1 := by
  have hlength : (compile winding).code.length ≤ 65535 := by decide +kernel
  exact ⟨by decide +kernel, hlength, compile_wellFormed winding hlength⟩

end Birokrasi.Bytecode
