import Birokrasi.Disguise.Variants
import Birokrasi.Proofs.SameContent
import Birokrasi.Proofs.SeededWords

/-!
# Code with idle bytes in it

`sledded` puts an idle byte in front of those bytes that its draws mark, whatever the bytes are. So
a byte of the code is found behind where it was, by as many bytes as marks stand at it or before it
(`shift`).

A run of the longer code keeps in step with one of the code (`inStep_sled`), as long as no idle byte
falls between an operation and its operand, no leap leads behind an idle byte, and no address behind
one is reported (`SparedBySled`).
-/

namespace Birokrasi.Disguise

open Birokrasi.Bytecode
open Birokrasi.Machine
open Birokrasi.Text (Bytes)

/-! ## Marks -/

/-- Code with an idle byte in front of each byte that is marked. -/
def padded : (marks : List Bool) → Bytes → Bytes
  | [], code => code
  | _ :: _, [] => []
  | mark :: marks, b :: rest =>
    if mark then Opcode.nop.byte :: b :: padded marks rest else b :: padded marks rest

/-- The marks drawn for so many bytes, and the generator after that. -/
def drawMarks : (count : Nat) → Twister → List Bool × Twister
  | 0, g => ([], g)
  | count + 1, g =>
    let drawn := drawMarks count g.unit.2
    (decide (g.unit.1 < 0.1) :: drawn.1, drawn.2)

theorem sledded_eq (code : Bytes) (g : Twister) :
    sledded code g = (padded (drawMarks code.length g).1 code, (drawMarks code.length g).2) := by
  induction code generalizing g with
  | nil => rfl
  | cons b rest ih =>
    simp only [sledded, List.length_cons, drawMarks, padded, ih, decide_eq_true_eq]

theorem drawMarks_of_yields {us : List Float} {g : Twister} (h : Twister.Yields us g) {count : Nat}
    (hcount : count ≤ us.length) :
    (drawMarks count g).1 = (us.take count).map (fun u => decide (u < 0.1)) ∧
      Twister.Yields (us.drop count) (drawMarks count g).2 := by
  induction count generalizing us g with
  | zero => exact ⟨rfl, h⟩
  | succ count ih =>
    cases us with
    | nil => cases hcount
    | cons u us =>
      obtain ⟨rfl, hrest⟩ := h
      obtain ⟨hmarks, hlater⟩ := ih hrest (Nat.le_of_succ_le_succ hcount)
      rw [List.take_succ_cons, List.map_cons, List.drop_succ_cons, drawMarks, ← hmarks]
      exact ⟨rfl, hlater⟩

/-- How many idle bytes stand before the byte of an address, without the one in front of it. -/
def shift (marks : List Bool) (a : Nat) : Nat := (marks.take a).count true

variable {marks : List Bool} {code : Bytes} {a : Nat}

theorem shift_cons_succ (mark : Bool) :
    shift (mark :: marks) (a + 1) = shift marks a + if mark then 1 else 0 := by
  cases mark <;> simp [shift]

theorem shift_le_shift {b : Nat} (h : a ≤ b) : shift marks a ≤ shift marks b :=
  (List.take_sublist_take_left h).count_le true

theorem shift_succ (marks : List Bool) (a : Nat) :
    shift marks (a + 1) = shift marks a + if marks[a]? = some true then 1 else 0 := by
  rw [shift, List.take_add_one, List.count_append, ← shift]
  cases marks[a]? with
  | none => rfl
  | some mark => cases mark <;> rfl

theorem length_padded (marks : List Bool) (code : Bytes) :
    (padded marks code).length = code.length + shift marks code.length := by
  fun_induction padded marks code with
  | case1 code => simp [shift]
  | case2 mark marks => rfl
  | case3 marks b rest ih => simp [ih, shift_cons_succ]; omega
  | case4 mark marks b rest hm ih => simp [ih, shift_cons_succ, hm]; omega

/-- A byte stands behind the idle bytes in front of it and before it. -/
theorem getElem?_padded (marks : List Bool) (code : Bytes) (a : Nat) :
    (padded marks code)[a + shift marks (a + 1)]? = code[a]? := by
  fun_induction padded marks code generalizing a with
  | case1 code => simp [shift]
  | case2 mark marks => rfl
  | case3 marks b rest ih =>
    cases a with
    | zero => simp [shift]
    | succ a =>
      rw [shift_cons_succ, if_pos rfl, List.getElem?_cons_succ, ← ih a,
        show a + 1 + (shift marks (a + 1) + 1) = a + shift marks (a + 1) + 1 + 1 by omega,
        List.getElem?_cons_succ, List.getElem?_cons_succ]
  | case4 mark marks b rest hm ih =>
    cases a with
    | zero => simp [shift, hm]
    | succ a =>
      rw [shift_cons_succ, if_neg hm, List.getElem?_cons_succ, ← ih a,
        show a + 1 + (shift marks (a + 1) + 0) = a + shift marks (a + 1) + 1 by omega,
        List.getElem?_cons_succ]

/-- In front of a marked byte stands an idle one. -/
theorem getElem?_padded_idle (hmark : marks[a]? = some true) (ha : a < code.length) :
    (padded marks code)[a + shift marks a]? = some Opcode.nop.byte := by
  fun_induction padded marks code generalizing a with
  | case1 code => simp at hmark
  | case2 mark marks => simp at ha
  | case3 marks b rest ih =>
    cases a with
    | zero => rfl
    | succ a =>
      have hrest := ih (by simpa using hmark) (by simpa using ha)
      rw [shift_cons_succ, if_pos rfl,
        show a + 1 + (shift marks a + 1) = a + shift marks a + 1 + 1 by omega,
        List.getElem?_cons_succ, List.getElem?_cons_succ, hrest]
  | case4 mark marks b rest hm ih =>
    cases a with
    | zero => exact absurd (by simpa using hmark) hm
    | succ a =>
      have hrest := ih (by simpa using hmark) (by simpa using ha)
      rw [shift_cons_succ, if_neg hm,
        show a + 1 + (shift marks a + 0) = a + shift marks a + 1 by omega,
        List.getElem?_cons_succ, hrest]

/-- An operand without a mark in it is the same as before. -/
theorem numberAt_padded (h : shift marks (a + 3) = shift marks (a + 1)) :
    numberAt (padded marks code).toArray (a + shift marks (a + 1)) = numberAt code.toArray a := by
  have hnear : shift marks (a + 1 + 1) = shift marks (a + 1) :=
    Nat.le_antisymm (h ▸ shift_le_shift (by omega)) (shift_le_shift (by omega))
  have hfar : shift marks (a + 2 + 1) = shift marks (a + 1) := h
  have hlow : (padded marks code)[a + shift marks (a + 1) + 1]? = code[a + 1]? := by
    rw [← getElem?_padded marks code (a + 1), hnear, Nat.add_right_comm]
  have hhigh : (padded marks code)[a + shift marks (a + 1) + 2]? = code[a + 2]? := by
    rw [← getElem?_padded marks code (a + 2), hfar, Nat.add_right_comm]
  simp only [numberAt, List.getElem?_toArray, hlow, hhigh]

/-! ## Runs -/

/-- No mark matters to a round from here: none is in the operand that is read, none stands before the
address that is leapt to or reported. -/
structure SparedBySled (marks : List Bool) (m : Machine) : Prop where
  operand : ∀ op ∈ m.atHand, reads op → shift marks (m.pc.toNat + 3) = shift marks (m.pc.toNat + 1)
  leap : ∀ op ∈ m.atHand, leaps op m.stack → shift marks (numberAt m.code m.pc.toNat) = 0
  report : m.reportsPlace → shift marks (m.pc.toNat + 1) = 0

instance (marks : List Bool) (m : Machine) : Decidable (SparedBySled marks m) :=
  decidable_of_iff
    ((∀ op ∈ m.atHand, reads op → shift marks (m.pc.toNat + 3) = shift marks (m.pc.toNat + 1)) ∧
      (∀ op ∈ m.atHand, leaps op m.stack → shift marks (numberAt m.code m.pc.toNat) = 0) ∧
      (m.reportsPlace → shift marks (m.pc.toNat + 1) = 0))
    ⟨fun ⟨h, h', h''⟩ => ⟨h, h', h''⟩, fun ⟨h, h', h''⟩ => ⟨h, h', h''⟩⟩

/-- Machines in code without and with the idle bytes. -/
structure BesideSled (marks : List Bool) (code : Bytes) (m n : Machine) : Prop where
  content : SameContent m n
  untraced : m.traced = false
  left : m.code = code.toArray
  right : n.code = (padded marks code).toArray

/-- Such machines in front of the same byte, and of the idle one before it. -/
structure AlongSled (marks : List Bool) (code : Bytes) (m n : Machine) : Prop
    extends BesideSled marks code m n where
  place : ∃ a : Nat, m.pc = a ∧ n.pc = (a + shift marks a : Nat)

variable {m n : Machine}

/-- A round at an idle byte does nothing else than to pass it. -/
theorem perform_round_nop (ht : m.traced = false) (hb : m.byteAt? m.pc = some Opcode.nop.byte) :
    perform (round (.float 0.0)) m = (.ok true, { m.counted with pc := m.pc + 1 }) := by
  simp only [perform_round_of_byteAt? ht hb, execute, opcode?_byte]
  rfl

theorem SparedBySled.span_eq {op : Opcode} (h : SparedBySled marks m) (hop : op ∈ m.atHand)
    (hreads : reads op) (ha : m.pc = a) : shift marks (a + 3) = shift marks (a + 1) := by
  have hspan := h.operand op hop hreads
  rwa [ha, Int.toNat_natCast] at hspan

theorem BesideSled.numberAt_eq {op : Opcode} (h : BesideSled marks code m n)
    (hspared : SparedBySled marks m) (hop : op ∈ m.atHand) (hreads : reads op) (ha : m.pc = a) :
    numberAt n.code (a + shift marks (a + 1)) = numberAt m.code a := by
  rw [h.left, h.right, numberAt_padded (hspared.span_eq hop hreads ha)]

/-- The operation leads to the same byte in both, behind the idle bytes that the one has. -/
theorem exists_destination {op : Opcode} (hop : op ∈ m.atHand) (hmore : op ≠ .finish)
    (h : BesideSled marks code m n) (ha : m.pc = a) (ha' : n.pc = (a + shift marks (a + 1) : Nat))
    (hspared : SparedBySled marks m) :
    ∃ a' : Nat, destination op m = a' ∧ destination op n = (a' + shift marks a' : Nat) := by
  unfold destination
  rw [← h.content.stack, operandOf_eq ha, operandOf_eq ha']
  by_cases hleaps : leaps op m.stack
  · have hzero := hspared.leap op hop hleaps
    rw [ha, Int.toNat_natCast] at hzero
    rw [if_pos hleaps, if_pos hleaps, h.numberAt_eq hspared hop (reads_of_leaps hleaps) ha]
    exact ⟨numberAt m.code a, rfl, by simp [Except.toOption, hzero]⟩
  · rw [if_neg hleaps, if_neg hleaps, stride_eq hmore, ha, ha']
    by_cases hreads : reads op
    · have hspan := hspared.span_eq hop hreads ha
      rw [if_pos hreads]
      exact ⟨a + 3, by omega, by omega⟩
    · rw [if_neg hreads]
      exact ⟨a + 1, by omega, by omega⟩

/-- Machines at the same byte make the same round. -/
theorem kept_at_byte (h : BesideSled marks code m n) (ha : m.pc = a) (hlt : a < code.length)
    (ha' : n.pc = (a + shift marks (a + 1) : Nat)) (hspared : SparedBySled marks m) :
    Kept (AlongSled marks code) 1 n (perform (round (.float 0.0)) m) := by
  have hb : m.byteAt? m.pc = some code[a] := by
    rw [ha, byteAt?_natCast, h.left, List.getElem?_toArray, List.getElem?_eq_getElem hlt]
  have hbyte : n.code[a + shift marks (a + 1)]? = some code[a] := by
    rw [h.right, List.getElem?_toArray, getElem?_padded, List.getElem?_eq_getElem hlt]
  have hb' : n.byteAt? n.pc = some code[a] := by rw [ha', byteAt?_natCast, hbyte]
  have hdue : n.pc < n.code.size := by
    obtain ⟨hlt', -⟩ := Array.getElem?_eq_some_iff.1 hbyte
    omega
  have hhand {op : Opcode} (hop : op ∈ Opcode.ofByte? code[a]) : op ∈ m.atHand := by
    rw [atHand, hb]
    exact hop
  refine kept_of_content h.content h.untraced hb hb' hdue ?_ ?_ ?_
  · intro op hop hreads
    rw [operandOf_eq ha, operandOf_eq ha', h.numberAt_eq hspared (hhand hop) hreads ha]
  · intro hreport
    have hzero := hspared.report hreport
    rw [ha, Int.toNat_natCast] at hzero
    rw [ha, ha', hzero, Nat.add_zero]
  · intro op hop hmore m' n' hsame hm hn
    obtain ⟨a', hd, hd'⟩ := exists_destination (hhand hop) hmore h ha ha' hspared
    exact ⟨⟨hsame, hm.untraced, hm.code.trans h.left, hn.code.trans h.right⟩, a',
      hm.pc.trans hd, hn.pc.trans hd'⟩

/-- Code with idle bytes runs in step with the code. -/
theorem inStep_sled (marks : List Bool) (code : Bytes) :
    InStep (SparedBySled marks) (AlongSled marks code) where
  ended {m n} h hend := by
    obtain ⟨a, ha, ha'⟩ := h.place
    have hle : code.length ≤ a := by
      rw [h.left, List.size_toArray] at hend
      omega
    have hshift : shift marks code.length ≤ shift marks a := shift_le_shift hle
    refine ⟨?_, h.content⟩
    rw [h.right, List.size_toArray, length_padded, ha']
    omega
  round {m n} h hdue hspared := by
    obtain ⟨a, ha, ha'⟩ := h.place
    have hlt : a < code.length := by
      rw [h.left, List.size_toArray] at hdue
      omega
    have hshift := shift_succ marks a
    by_cases hmark : marks[a]? = some true
    · -- The idle byte comes first.
      rw [if_pos hmark] at hshift
      have hbyte : n.code[a + shift marks a]? = some Opcode.nop.byte := by
        rw [h.right, List.getElem?_toArray, getElem?_padded_idle hmark hlt]
      have hb' : n.byteAt? n.pc = some Opcode.nop.byte := by rw [ha', byteAt?_natCast, hbyte]
      have ht' : n.traced = false := by
        rw [← h.untraced, h.content.look Machine.traced fun _ => rfl]
      have hdue' : n.pc < n.code.size := by
        obtain ⟨hlt', -⟩ := Array.getElem?_eq_some_iff.1 hbyte
        omega
      refine Kept.of_round hdue' (perform_round_nop ht' hb') ?_
      refine kept_at_byte ⟨h.content, h.untraced, h.left, h.right⟩ ha hlt ?_ hspared
      show n.pc + 1 = _
      omega
    · rw [if_neg hmark] at hshift
      exact (kept_at_byte h.toBesideSled ha hlt (by omega) hspared).mono (by omega)

end Birokrasi.Disguise
