import Birokrasi.Disguise.Relocation
import Birokrasi.Proofs.Outcome

/-!
# Relocated code leads to the same instructions

Idle instructions shift the ones behind them (`Padded`), so that an address of the old code
corresponds to another one of the new code (`Corresponds`). The main statement is `layout_of_disguise`:
in disguised code every instruction stands where it has been shifted to, behind the byte that hides
its operation, and every jump leads to the address that corresponds to its old target. Code that is
short enough can always be disguised (`exists_disguise`).
-/

namespace Birokrasi.Disguise

open Birokrasi.Bytecode
open Birokrasi.Text (Bytes)

variable {p q : Piece} {ps qs rs l r : List Piece} {code : Bytes} {start a : Nat}

/-! ## Instructions in code -/

/-- The number of bytes of instructions. -/
def extent : List Piece → Nat
  | [] => 0
  | p :: ps => p.size + extent ps

@[simp] theorem extent_nil : extent [] = 0 := rfl

@[simp] theorem extent_cons : extent (p :: ps) = p.size + extent ps := rfl

@[simp] theorem extent_append : extent (ps ++ qs) = extent ps + extent qs := by
  induction ps with
  | nil => simp
  | cons p ps ih => simp [ih, Nat.add_assoc]

theorem length_flatMap_bytes (ps : List Piece) : (ps.flatMap Piece.bytes).length = extent ps := by
  induction ps with
  | nil => rfl
  | cons p ps ih => simp +arith [ih, Piece.bytes, Piece.size]

/-- Every instruction has the address of the byte that it starts with. -/
def Addressed (start : Nat) (ps : List Piece) : Prop :=
  ∀ l p r, ps = l ++ p :: r → p.address = some (start + extent l)

theorem Addressed.nil : Addressed start [] := by
  intro l p r h
  simp at h

theorem Addressed.cons (hp : p.address = some start) (h : Addressed (start + p.size) ps) :
    Addressed start (p :: ps) := by
  intro l q r heq
  cases l with
  | nil =>
    cases heq
    simp [hp]
  | cons x l =>
    cases heq
    rw [h l q r rfl, extent_cons, Nat.add_assoc]

theorem addressed_piecesFrom (start : Nat) (code : Bytes) :
    Addressed start (piecesFrom start code) := by
  fun_induction piecesFrom start code with
  | case1 => exact .nil
  | case2 start b low high rest h ih => exact .cons rfl ih
  | case3 start b low high rest h ih => exact .cons rfl ih
  | case4 start b rest h ih => exact .cons rfl ih

theorem flatMap_piecesFrom (start : Nat) (code : Bytes) :
    (piecesFrom start code).flatMap Piece.bytes = code := by
  fun_induction piecesFrom start code with
  | case1 => rfl
  | case2 start b low high rest h ih => simp [Piece.bytes, ih]
  | case3 start b low high rest h ih => simp [Piece.bytes, ih]
  | case4 start b rest h ih => simp [Piece.bytes, ih]

theorem extent_pieces (code : Bytes) : extent (pieces code) = code.length := by
  rw [← length_flatMap_bytes, pieces, flatMap_piecesFrom]

/-- An address is taken once only. -/
theorem Addressed.ne_of_mem (h : Addressed start (l ++ r)) (hq : q ∈ l) :
    q.address ≠ some (start + extent l) := by
  obtain ⟨front, back, rfl⟩ := List.append_of_mem hq
  rw [h front q (back ++ r) (by simp)]
  simp [Piece.size]

/-! ## Idle instructions -/

/-- Instructions with idle ones put in. -/
inductive Padded : List Piece → List Piece → Prop where
  | nil : Padded [] []
  | idle {ps qs : List Piece} : Padded ps qs → Padded ps (Piece.idle :: qs)
  | keep {ps qs : List Piece} (p : Piece) : Padded ps qs → Padded (p :: ps) (p :: qs)

namespace Padded

theorem refl (ps : List Piece) : Padded ps ps := by
  induction ps with
  | nil => exact .nil
  | cons p ps ih => exact .keep p ih

theorem mem (h : Padded ps qs) (hq : q ∈ qs) : q = Piece.idle ∨ q ∈ ps := by
  induction h with
  | nil => cases hq
  | idle _ ih =>
    cases List.mem_cons.1 hq with
    | inl heq => exact .inl heq
    | inr hmem => exact ih hmem
  | keep p _ ih =>
    cases List.mem_cons.1 hq with
    | inl heq => exact .inr (heq ▸ List.mem_cons_self)
    | inr hmem => exact (ih hmem).imp_right (List.mem_cons_of_mem p)

/-- An instruction is still there, with its idle ones in front of it. -/
theorem split (h : Padded (l ++ p :: r) qs) :
    ∃ l' r', qs = l' ++ p :: r' ∧ Padded l l' ∧ Padded r r' := by
  generalize hps : l ++ p :: r = ps at h
  induction h generalizing l with
  | nil => simp at hps
  | idle _ ih =>
    obtain ⟨l', r', rfl, hl, hr⟩ := ih hps
    exact ⟨Piece.idle :: l', r', rfl, .idle hl, hr⟩
  | keep q h ih =>
    cases l with
    | nil =>
      cases hps
      exact ⟨[], _, rfl, .nil, h⟩
    | cons x l =>
      cases hps
      obtain ⟨l', r', rfl, hl, hr⟩ := ih rfl
      exact ⟨q :: l', r', rfl, .keep q hl, hr⟩

end Padded

theorem padded_withIdle (ps : List Piece) (g : Twister) : Padded ps (withIdle ps g) := by
  fun_induction withIdle ps g with
  | case1 => exact .nil
  | case2 => exact .idle (.idle (.keep _ (by assumption)))
  | case3 => exact .idle (.keep _ (by assumption))
  | case4 => exact .keep _ (by assumption)

/-- At most two idle instructions are put in front of each. -/
theorem extent_withIdle_le (ps : List Piece) (g : Twister) :
    extent (withIdle ps g) ≤ 3 * extent ps := by
  fun_induction withIdle ps g <;> simp [Piece.size, Piece.idle] at * <;> omega

/-- From the address `a` of some instructions the same ones follow as from `a'` of others, up to idle
ones. -/
def Corresponds (ps qs : List Piece) (a a' : Nat) : Prop :=
  ∃ l r l' r', ps = l ++ r ∧ qs = l' ++ r' ∧ Padded r r' ∧ extent l = a ∧ extent l' = a'

/-! ## Targets -/

theorem get?_addressesFrom (start : Nat) (ha : q.address = some a)
    (hl : ∀ x ∈ l, x.address ≠ some a) :
    (addressesFrom start (l ++ q :: r)).1.get? a = some (start + extent l) := by
  induction l generalizing start with
  | nil => simp [addressesFrom, ha, Table.get?]
  | cons x l ih =>
    have hx : x.address ≠ some a := hl x List.mem_cons_self
    have hrest := ih (start + x.size) fun y hy => hl y (List.mem_cons_of_mem x hy)
    rw [extent_cons, ← Nat.add_assoc, ← hrest, List.cons_append, addressesFrom]
    cases hxa : x.address with
    | none => rfl
    | some b =>
      have hne : b ≠ a := fun h => hx (h ▸ hxa)
      simp [Table.get?, hne]

theorem get?_addressesFrom_eq_none (start : Nat) (h : ∀ x ∈ qs, x.address ≠ some a) :
    (addressesFrom start qs).1.get? a = none := by
  induction qs generalizing start with
  | nil => rfl
  | cons x qs ih =>
    have hx : x.address ≠ some a := h x List.mem_cons_self
    have hrest := ih (start + x.size) fun y hy => h y (List.mem_cons_of_mem x hy)
    rw [← hrest, addressesFrom]
    cases hxa : x.address with
    | none => rfl
    | some b =>
      have hne : b ≠ a := fun h => hx (h ▸ hxa)
      simp [Table.get?, hne]

theorem snd_addressesFrom (start : Nat) (qs : List Piece) :
    (addressesFrom start qs).2 = start + extent qs := by
  induction qs generalizing start with
  | nil => rfl
  | cons q qs ih =>
    rw [extent_cons, ← Nat.add_assoc, ← ih, addressesFrom]
    cases q.address <;> rfl

/-- Every jump with a whole operand leads to an instruction or to the end of the code. -/
def Targeted (ps : List Piece) : Prop :=
  ∀ p ∈ ps, p.isJump → ofLittleEndian p.operand = extent ps ∨
    ∃ q ∈ ps, q.address = some (ofLittleEndian p.operand)

section Retarget

variable {operand operand' : Bytes}

theorem retarget_of_some {table : Table Nat Nat} {oldEnd newEnd new : Nat}
    (h : (table.get? (ofLittleEndian operand) <|>
      (if ofLittleEndian operand = oldEnd then some newEnd else none)) = some new)
    (ho : retarget table oldEnd newEnd operand = .ok operand') :
    operand' = littleEndian 2 new ∧ new < 0x10000 := by
  simp only [retarget, h] at ho
  split at ho
  · next hlt => exact ⟨(Except.ok.inj ho).symm, hlt⟩
  · cases ho

/-- The new target is the address that corresponds to the old one. -/
theorem corresponds_of_retarget (hps : Addressed 0 ps) (hpad : Padded ps qs)
    (ht : ofLittleEndian operand = extent ps ∨ ∃ q ∈ ps, q.address = some (ofLittleEndian operand))
    (ho : retarget (addressesFrom 0 qs).1 (extent ps) (addressesFrom 0 qs).2 operand = .ok operand') :
    ∃ new, operand' = littleEndian 2 new ∧ new < 0x10000 ∧
      Corresponds ps qs (ofLittleEndian operand) new := by
  cases ht with
  | inl hend =>
    have hall : Addressed 0 (ps ++ []) := by rwa [List.append_nil]
    have hnone : (addressesFrom 0 qs).1.get? (extent ps) = none := by
      refine get?_addressesFrom_eq_none 0 fun x hx => ?_
      cases hpad.mem hx with
      | inl hidle => simp [hidle, Piece.idle]
      | inr hmem => simpa using hall.ne_of_mem hmem
    obtain ⟨hnew, hlt⟩ := retarget_of_some (by rw [hend, hnone, if_pos rfl]; rfl) ho
    refine ⟨_, hnew, hlt, ps, [], qs, [], by simp, by simp, .nil, hend.symm, ?_⟩
    rw [snd_addressesFrom, Nat.zero_add]
  | inr hto =>
    obtain ⟨q, hq, ha⟩ := hto
    obtain ⟨l, r, rfl⟩ := List.append_of_mem hq
    obtain ⟨l', r', rfl, hl, hr⟩ := hpad.split
    have hlen : ofLittleEndian operand = extent l := by
      have := (hps l q r rfl).symm.trans ha
      simpa using this.symm
    have hother : ∀ x ∈ l', x.address ≠ some (extent l) := by
      intro x hx
      cases hl.mem hx with
      | inl hidle => simp [hidle, Piece.idle]
      | inr hmem => simpa using hps.ne_of_mem hmem
    have hget := get?_addressesFrom (r := r') 0 (hlen ▸ ha) hother
    obtain ⟨hnew, hlt⟩ := retarget_of_some (by rw [hlen, hget]; rfl) ho
    exact ⟨_, hnew, hlt, l, q :: r, l', q :: r', rfl, rfl, .keep q hr, hlen.symm, by simp⟩

end Retarget

/-! ## Relocation -/

/-- An instruction with its target relocated, if it is a jump. -/
def moved (table : Table Nat Nat) (oldEnd newEnd : Nat) (p : Piece) : Except Fault Piece := do
  if p.isJump then return { p with operand := ← retarget table oldEnd newEnd p.operand }
  else return p

theorem relocate_eq (oldEnd : Nat) (qs : List Piece) :
    relocate oldEnd qs = qs.mapM (moved (addressesFrom 0 qs).1 oldEnd (addressesFrom 0 qs).2) := rfl

section Moved

variable {table : Table Nat Nat} {oldEnd newEnd : Nat} {p' : Piece}

theorem length_of_retarget {operand operand' : Bytes} (hl : operand.length = 2)
    (h : retarget table oldEnd newEnd operand = .ok operand') : operand'.length = 2 := by
  simp only [retarget] at h
  split at h
  · split at h
    · cases h
      exact length_littleEndian 2 _
    · cases h
  · cases h
    exact hl

theorem moved_of_isJump (hj : p.isJump = true) (h : moved table oldEnd newEnd p = .ok p') :
    ∃ operand, retarget table oldEnd newEnd p.operand = .ok operand ∧
      p' = { p with operand := operand } := by
  rw [moved, if_pos hj] at h
  obtain ⟨operand, ho, hp⟩ := bind_eq_ok.1 h
  exact ⟨operand, ho, (Except.ok.inj hp).symm⟩

theorem moved_of_not_isJump (hj : p.isJump = false) (h : moved table oldEnd newEnd p = .ok p') :
    p' = p := by
  rw [moved, hj] at h
  exact (Except.ok.inj h).symm

theorem size_of_moved (h : moved table oldEnd newEnd p = .ok p') : p'.size = p.size := by
  cases hj : p.isJump with
  | false => rw [moved_of_not_isJump hj h]
  | true =>
    obtain ⟨operand, ho, rfl⟩ := moved_of_isJump hj h
    have hlen : p.operand.length = 2 := by
      simp only [Piece.isJump, Bool.and_eq_true, decide_eq_true_eq] at hj
      exact hj.2
    simp [Piece.size, hlen, length_of_retarget hlen ho]

theorem extent_of_mapM_moved (h : qs.mapM (moved table oldEnd newEnd) = .ok rs) :
    extent rs = extent qs := by
  induction qs generalizing rs with
  | nil =>
    cases h
    rfl
  | cons q qs ih =>
    rw [List.mapM_cons] at h
    obtain ⟨q', hq, h⟩ := bind_eq_ok.1 h
    obtain ⟨rs', hrs, h⟩ := bind_eq_ok.1 h
    cases h
    rw [extent_cons, extent_cons, size_of_moved hq, ih hrs]

end Moved

/-- The bytes of an instruction whose operation is hidden. -/
def Piece.hidden (m : Mapping) (p : Piece) : Bytes := m.conceal p.op :: p.operand

theorem length_flatMap_hidden (m : Mapping) (ps : List Piece) :
    (ps.flatMap (Piece.hidden m)).length = extent ps := by
  induction ps with
  | nil => rfl
  | cons p ps ih => simp +arith [ih, Piece.hidden, Piece.size]

/-- The code holds the instructions `qs` with their operations hidden by `m`, and their jumps lead to
what corresponds to their targets among the instructions `ps`. -/
structure Layout (m : Mapping) (ps qs : List Piece) (code : Bytes) : Prop where
  padded : Padded ps qs
  length_eq : code.length = extent qs
  stands : ∀ {l q r}, qs = l ++ q :: r → ∃ front operand back,
    code = front ++ m.conceal q.op :: operand ++ back ∧ front.length = extent l ∧
      (q.isJump = false → operand = q.operand) ∧
      (q.isJump = true → ∃ new, operand = littleEndian 2 new ∧ new < 0x10000 ∧
        Corresponds ps qs (ofLittleEndian q.operand) new)

theorem isJump_idle : Piece.idle.isJump = false := rfl

theorem layout_of_relocate (m : Mapping) (hps : Addressed 0 ps) (ht : Targeted ps)
    (hpad : Padded ps qs) (h : relocate (extent ps) qs = .ok rs) :
    Layout m ps qs (rs.flatMap (Piece.hidden m)) := by
  rw [relocate_eq] at h
  refine ⟨hpad, by rw [length_flatMap_hidden, extent_of_mapM_moved h], ?_⟩
  intro l q r hqs
  generalize htable : addressesFrom 0 qs = addresses at h
  rw [hqs, List.mapM_append] at h
  obtain ⟨l', hl, h⟩ := bind_eq_ok.1 h
  obtain ⟨r', hr, h⟩ := bind_eq_ok.1 h
  cases h
  rw [List.mapM_cons] at hr
  obtain ⟨q', hq, hr⟩ := bind_eq_ok.1 hr
  obtain ⟨r'', hr', hr⟩ := bind_eq_ok.1 hr
  cases hr
  have hfront : (l'.flatMap (Piece.hidden m)).length = extent l := by
    rw [length_flatMap_hidden, extent_of_mapM_moved hl]
  cases hj : q.isJump with
  | false =>
    rw [moved_of_not_isJump hj hq]
    exact ⟨_, q.operand, r''.flatMap (Piece.hidden m), by simp [Piece.hidden], hfront,
      fun _ => rfl, nofun⟩
  | true =>
    obtain ⟨operand, ho, rfl⟩ := moved_of_isJump hj hq
    have hmem : q ∈ ps := by
      cases hpad.mem (hqs ▸ List.mem_append_right l List.mem_cons_self) with
      | inl hidle => rw [hidle, isJump_idle] at hj; cases hj
      | inr hmem => exact hmem
    refine ⟨_, operand, r''.flatMap (Piece.hidden m), by simp [Piece.hidden], hfront, nofun,
      fun _ => ?_⟩
    rw [← htable] at ho
    exact corresponds_of_retarget hps hpad (ht q hmem hj) ho

/-- The instructions that disguised code is made of. -/
def spread (ps : List Piece) (seed level : Int) : List Piece :=
  if 2 ≤ level then withIdle ps (Twister.ofSeed seed) else ps

theorem padded_spread (ps : List Piece) (seed level : Int) : Padded ps (spread ps seed level) := by
  rw [spread]
  split
  · exact padded_withIdle ps _
  · exact .refl ps

/-- In disguised code the instructions stand where they have been shifted to, and the jumps follow
them. -/
theorem layout_of_disguise {seed level : Int} {code' : Bytes} (ht : Targeted (pieces code))
    (h : disguise code seed level = .ok code') :
    Layout (Mapping.ofSeed seed) (pieces code) (spread (pieces code) seed level) code' := by
  obtain ⟨rs, hrs, h⟩ := bind_eq_ok.1 h
  cases h
  rw [← extent_pieces] at hrs
  exact layout_of_relocate _ (addressed_piecesFrom 0 code) ht (padded_spread _ seed level) hrs

/-! ## Short code -/

theorem le_of_get?_addressesFrom {new : Nat}
    (h : (addressesFrom start qs).1.get? a = some new) : new ≤ start + extent qs := by
  induction qs generalizing start with
  | nil => cases h
  | cons q qs ih =>
    rw [extent_cons, ← Nat.add_assoc]
    rw [addressesFrom] at h
    cases hq : q.address with
    | none =>
      simp only [hq] at h
      exact ih h
    | some b =>
      simp only [hq, Table.get?] at h
      split at h
      · cases h
        omega
      · exact ih h

theorem exists_retarget (oldEnd : Nat) (operand : Bytes) (h : extent qs < 0x10000) :
    ∃ operand', retarget (addressesFrom 0 qs).1 oldEnd (addressesFrom 0 qs).2 operand =
      .ok operand' := by
  simp only [retarget]
  split
  · next new heq =>
    have hle : new ≤ extent qs := by
      rw [snd_addressesFrom, Nat.zero_add] at heq
      cases hget : (addressesFrom 0 qs).1.get? (ofLittleEndian operand) with
      | some b =>
        rw [hget] at heq
        cases heq
        simpa using le_of_get?_addressesFrom hget
      | none =>
        rw [hget] at heq
        simp only [Option.orElse_eq_orElse, Option.orElse_none] at heq
        split at heq
        · cases heq
          exact Nat.le_refl _
        · cases heq
    rw [if_pos (by omega)]
    exact ⟨_, rfl⟩
  · exact ⟨_, rfl⟩

theorem exists_mapM {α β ε : Type} {f : α → Except ε β} (xs : List α)
    (h : ∀ x, ∃ y, f x = .ok y) : ∃ ys, xs.mapM f = .ok ys := by
  induction xs with
  | nil => exact ⟨[], rfl⟩
  | cons x xs ih =>
    obtain ⟨y, hy⟩ := h x
    obtain ⟨ys, hys⟩ := ih
    exact ⟨y :: ys, by rw [List.mapM_cons, hy, hys]; rfl⟩

/-- Code that stays short enough for the operands of its jumps can be disguised. -/
theorem exists_disguise (seed level : Int) (h : 3 * code.length < 0x10000) :
    ∃ code', disguise code seed level = .ok code' := by
  have hshort : extent (spread (pieces code) seed level) < 0x10000 := by
    rw [← extent_pieces] at h
    rw [spread]
    split
    · exact Nat.lt_of_le_of_lt (extent_withIdle_le _ _) h
    · omega
  obtain ⟨rs, hrs⟩ : ∃ rs, relocate code.length (spread (pieces code) seed level) = .ok rs := by
    rw [relocate_eq]
    refine exists_mapM _ fun p => ?_
    obtain ⟨operand, ho⟩ := exists_retarget code.length p.operand hshort
    rw [moved, ho]
    split <;> exact ⟨_, rfl⟩
  exact ⟨_, bind_eq_ok.2 ⟨rs, hrs, rfl⟩⟩

end Birokrasi.Disguise
