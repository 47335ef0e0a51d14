import Birokrasi.Proofs.RelocatedCode
import Mathlib.Data.List.Forall2

/-!
# Disguised code, instruction by instruction

Disguised code is the code with a number of idle instructions put in front of each instruction (`spaced`),
with the operations hidden, and with the jumps led to where their targets have gone (`Relocated`). Nothing
is assumed of the code: it may be any bytes, with operands that are cut off at its end and with jumps that
lead into the middle of an instruction or out of the code; these jumps are left alone.

The main statement is `instructions_of_disguise`. At the lowest level no idle instruction is put in, so
all instructions and all targets stay where they are, and only the bytes of the operations change
(`flatMap_hidden_of_zero`, `getElem?_hidden_of_not_address`).
-/

namespace Birokrasi.Disguise

open Birokrasi.Bytecode
open Birokrasi.Text (Bytes)

variable {p q : Piece} {ps qs rs : List Piece} {counts : List Nat} {code : Bytes} {k a : Nat}

/-! ## Idle instructions by number -/

/-- Instructions with so many idle ones in front of each. -/
def spaced : (counts : List Nat) → List Piece → List Piece
  | n :: counts, p :: ps => List.replicate n Piece.idle ++ p :: spaced counts ps
  | _, ps => ps

@[simp] theorem spaced_nil (counts : List Nat) : spaced counts [] = [] := by cases counts <;> rfl

@[simp] theorem nil_spaced (ps : List Piece) : spaced [] ps = ps := by cases ps <;> rfl

theorem extent_replicate_idle (n : Nat) : extent (List.replicate n Piece.idle) = n := by
  induction n with
  | zero => rfl
  | succ n ih =>
    rw [List.replicate_succ, extent_cons, ih, Piece.size, Piece.idle]
    simp [Nat.add_comm]

theorem exists_spaced_cons (n : Nat) (p : Piece)
    (h : ∃ counts : List Nat, counts.length = ps.length ∧ qs = spaced counts ps) :
    ∃ counts : List Nat, counts.length = (p :: ps).length ∧
      List.replicate n Piece.idle ++ p :: qs = spaced counts (p :: ps) := by
  obtain ⟨counts, hlength, rfl⟩ := h
  exact ⟨n :: counts, congrArg Nat.succ hlength, rfl⟩

/-- However the draws turn out, idle instructions are put in front of instructions, and none behind the
last one. -/
theorem exists_withIdle_eq (ps : List Piece) (g : Twister) :
    ∃ counts : List Nat, counts.length = ps.length ∧ withIdle ps g = spaced counts ps := by
  fun_induction withIdle ps g with
  | case1 => exact ⟨[], rfl, rfl⟩
  | case2 => exact exists_spaced_cons 2 _ (by assumption)
  | case3 => exact exists_spaced_cons 1 _ (by assumption)
  | case4 => exact exists_spaced_cons 0 _ (by assumption)

theorem spaced_of_zero (h : ∀ n ∈ counts, n = 0) (ps : List Piece) : spaced counts ps = ps := by
  fun_induction spaced counts ps with
  | case1 n counts p ps ih =>
    rw [h n List.mem_cons_self, ih fun m hm => h m (List.mem_cons_of_mem n hm)]
    rfl
  | case2 => rfl

/-- The instructions of disguised code are those of the code, with idle ones in front of them from the
second level on. -/
theorem exists_spread_eq (ps : List Piece) (seed level : Int) :
    ∃ counts : List Nat, counts.length = ps.length ∧ (level < 2 → ∀ n ∈ counts, n = 0) ∧
      spread ps seed level = spaced counts ps := by
  rw [spread]
  split
  · next hlevel =>
    obtain ⟨counts, hlength, heq⟩ := exists_withIdle_eq ps (Twister.ofSeed seed)
    exact ⟨counts, hlength, fun h => absurd hlevel (by omega), heq⟩
  · have hzero : ∀ n ∈ List.replicate ps.length 0, n = 0 := fun n hn => List.eq_of_mem_replicate hn
    exact ⟨List.replicate ps.length 0, List.length_replicate, fun _ => hzero,
      (spaced_of_zero hzero ps).symm⟩

/-! ## Addresses -/

/-- The address of the instruction with number `k` among instructions that idle ones have been put in
front of: the bytes of the instructions before it, with their idle ones, and its own idle ones. -/
def newAddress (counts : List Nat) (ps : List Piece) (k : Nat) : Nat :=
  extent (spaced (counts.take k) (ps.take k)) + counts.getD k 0

/-- An instruction stands at its new address. What is before it is idle or an instruction that was before
it in the code. -/
theorem exists_spaced_split (hc : counts.length = ps.length) (hp : ps[k]? = some p) :
    ∃ l r, spaced counts ps = l ++ p :: r ∧ extent l = newAddress counts ps k ∧
      ∀ x ∈ l, x = Piece.idle ∨ x ∈ ps.take k := by
  induction ps generalizing counts k with
  | nil => simp at hp
  | cons q ps ih =>
    obtain ⟨n, counts, rfl⟩ := List.exists_cons_of_length_eq_add_one hc
    cases k with
    | zero =>
      cases hp
      refine ⟨List.replicate n Piece.idle, spaced counts ps, rfl, ?_, fun x hx =>
        .inl (List.eq_of_mem_replicate hx)⟩
      simp [newAddress, extent_replicate_idle]
    | succ k =>
      obtain ⟨l, r, heq, hextent, hmem⟩ := ih (Nat.succ.inj hc) hp
      refine ⟨List.replicate n Piece.idle ++ q :: l, r, ?_, ?_, ?_⟩
      · rw [spaced, heq, List.append_assoc, List.cons_append]
      · rw [extent_append, extent_cons, hextent]
        simp [newAddress, spaced]
        omega
      · intro x hx
        rcases List.mem_append.1 hx with hx | hx
        · exact .inl (List.eq_of_mem_replicate hx)
        · rcases List.mem_cons.1 hx with rfl | hx
          · exact .inr (by simp)
          · exact (hmem x hx).imp_right fun h => by simp [h]

theorem mem_spaced (hq : q ∈ spaced counts ps) : q = Piece.idle ∨ q ∈ ps := by
  fun_induction spaced counts ps with
  | case1 n counts p ps ih =>
    rcases List.mem_append.1 hq with hq | hq
    · exact .inl (List.eq_of_mem_replicate hq)
    · rcases List.mem_cons.1 hq with rfl | hq
      · exact .inr List.mem_cons_self
      · exact (ih hq).imp_right (List.mem_cons_of_mem p)
  | case2 => exact .inr hq

theorem eq_take_append_drop (hp : ps[k]? = some p) : ps = ps.take k ++ p :: ps.drop (k + 1) := by
  obtain ⟨hk, rfl⟩ := List.getElem?_eq_some_iff.1 hp
  simp

theorem Addressed.address_eq (hps : Addressed 0 ps) (hp : ps[k]? = some p) :
    p.address = some (extent (ps.take k)) := by
  rw [hps _ _ _ (eq_take_append_drop hp), Nat.zero_add]

theorem addressed_pieces (code : Bytes) : Addressed 0 (pieces code) := addressed_piecesFrom 0 code

/-- The new address of an instruction is found under its old one. -/
theorem get?_addressesFrom_spaced (hc : counts.length = ps.length) (hps : Addressed 0 ps)
    (hp : ps[k]? = some p) (ha : p.address = some a) :
    (addressesFrom 0 (spaced counts ps)).1.get? a = some (newAddress counts ps k) := by
  obtain ⟨l, r, heq, hextent, hmem⟩ := exists_spaced_split hc hp
  have hstart : a = extent (ps.take k) := Option.some.inj (ha.symm.trans (hps.address_eq hp))
  have hother : ∀ x ∈ l, x.address ≠ some a := by
    intro x hx
    rcases hmem x hx with rfl | hx
    · simp [Piece.idle]
    · rw [hstart, ← Nat.zero_add (extent (ps.take k))]
      exact Addressed.ne_of_mem (eq_take_append_drop hp ▸ hps) hx
  rw [heq, get?_addressesFrom 0 ha hother, Nat.zero_add, hextent]

theorem get?_addressesFrom_spaced_eq_none (counts : List Nat) (h : ∀ q ∈ ps, q.address ≠ some a) :
    (addressesFrom 0 (spaced counts ps)).1.get? a = none := by
  refine get?_addressesFrom_eq_none 0 fun x hx => ?_
  rcases mem_spaced hx with rfl | hx
  · simp [Piece.idle]
  · exact h x hx

/-! ## Relocated instructions -/

/-- An operand of two bytes that holds an address. -/
def HoldsAddress (operand : Bytes) (a : Nat) : Prop := operand = littleEndian 2 a ∧ a < 0x10000

/-- The instruction `r` is the instruction `p` of some code as it is once idle ones have been put in. A
jump to an instruction leads to that instruction, and a jump to the end to the new end. Other jumps and
other instructions stay as they are. -/
structure Relocated (code : Bytes) (counts : List Nat) (p r : Piece) : Prop where
  op_eq : r.op = p.op
  operand_eq : p.isJump = false → r.operand = p.operand
  to_instruction : p.isJump = true → ∀ k q, (pieces code)[k]? = some q →
    q.address = some (ofLittleEndian p.operand) →
      HoldsAddress r.operand (newAddress counts (pieces code) k)
  to_end : p.isJump = true → (∀ q ∈ pieces code, q.address ≠ some (ofLittleEndian p.operand)) →
    ofLittleEndian p.operand = code.length →
      HoldsAddress r.operand (extent (spaced counts (pieces code)))
  elsewhere : p.isJump = true → (∀ q ∈ pieces code, q.address ≠ some (ofLittleEndian p.operand)) →
    ofLittleEndian p.operand ≠ code.length → r.operand = p.operand

theorem relocated_of_moved {r : Piece} (hc : counts.length = (pieces code).length)
    (h : moved (addressesFrom 0 (spaced counts (pieces code))).1 code.length
      (addressesFrom 0 (spaced counts (pieces code))).2 p = .ok r) :
    Relocated code counts p r := by
  cases hj : p.isJump with
  | false =>
    rw [moved_of_not_isJump hj h]
    exact ⟨rfl, fun _ => rfl, by simp [hj], by simp [hj], by simp [hj]⟩
  | true =>
    obtain ⟨operand, ho, rfl⟩ := moved_of_isJump hj h
    refine ⟨rfl, by simp [hj], fun _ k q hq ha => ?_, fun _ hnone hend => ?_, fun _ hnone hend => ?_⟩
    · have hget := get?_addressesFrom_spaced hc (addressed_pieces code) hq ha
      exact retarget_of_some (by rw [hget]; rfl) ho
    · have hget := get?_addressesFrom_spaced_eq_none counts hnone
      have hnew := retarget_of_some (by rw [hget, if_pos hend]; rfl) ho
      rwa [snd_addressesFrom, Nat.zero_add] at hnew
    · have hget := get?_addressesFrom_spaced_eq_none counts hnone
      rw [retarget, hget, if_neg hend] at ho
      exact (Except.ok.inj ho).symm

theorem mapM_replicate_of_eq {α ε : Type} {f : α → Except ε α} {x : α} (h : f x = .ok x) (n : Nat) :
    (List.replicate n x).mapM f = .ok (List.replicate n x) := by
  induction n with
  | zero => rfl
  | succ n ih => rw [List.replicate_succ, List.mapM_cons, h, ih]; rfl

/-- A pass over the instructions that lets the idle ones be leaves them where they are. -/
theorem exists_of_mapM_spaced {f : Piece → Except Fault Piece} (hidle : f Piece.idle = .ok Piece.idle)
    (hc : counts.length = ps.length) (h : (spaced counts ps).mapM f = .ok qs) :
    ∃ rs, qs = spaced counts rs ∧ List.Forall₂ (fun p r => f p = .ok r) ps rs := by
  induction ps generalizing counts qs with
  | nil =>
    rw [spaced_nil] at h
    cases h
    exact ⟨[], (spaced_nil counts).symm, .nil⟩
  | cons p ps ih =>
    obtain ⟨n, counts, rfl⟩ := List.exists_cons_of_length_eq_add_one hc
    rw [spaced, List.mapM_append, mapM_replicate_of_eq hidle, ok_bind, List.mapM_cons] at h
    obtain ⟨rest, hrest, h⟩ := bind_eq_ok.1 h
    cases h
    obtain ⟨r, hr, hrest⟩ := bind_eq_ok.1 hrest
    obtain ⟨later, hlater, hrest⟩ := bind_eq_ok.1 hrest
    cases hrest
    obtain ⟨rs, rfl, hrs⟩ := ih (Nat.succ.inj hc) hlater
    exact ⟨r :: rs, rfl, .cons hr hrs⟩

/-! ## Bytes -/

section Bytes

variable {m : Mapping} {r : Piece}

/-- Instructions of the same sizes stand at the same addresses. -/
theorem extent_spaced_congr (counts : List Nat)
    (h : List.Forall₂ (fun p r : Piece => r.size = p.size) ps rs) :
    extent (spaced counts rs) = extent (spaced counts ps) := by
  induction h generalizing counts with
  | nil => rfl
  | cons hsize _ ih =>
    cases counts with
    | nil =>
      have hrest := ih []
      rw [nil_spaced, nil_spaced] at hrest ⊢
      rw [extent_cons, extent_cons, hsize, hrest]
    | cons n counts => simp only [spaced, extent_append, extent_cons, hsize, ih counts]

theorem newAddress_congr (h : List.Forall₂ (fun p r : Piece => r.size = p.size) ps rs) :
    newAddress counts rs k = newAddress counts ps k := by
  rw [newAddress, newAddress, extent_spaced_congr (counts.take k) (List.forall₂_take k h)]

/-- The byte of a hidden operation stands at the new address of its instruction. -/
theorem getElem?_hidden_newAddress (hc : counts.length = rs.length) (hr : rs[k]? = some r) :
    ((spaced counts rs).flatMap (Piece.hidden m))[newAddress counts rs k]? =
      some (m.conceal r.op) := by
  obtain ⟨l, later, heq, hextent, -⟩ := exists_spaced_split hc hr
  rw [heq, ← hextent, List.flatMap_append, List.flatMap_cons, ← length_flatMap_hidden m l,
    List.getElem?_append_right (Nat.le_refl _), Nat.sub_self]
  rfl

/-- Hiding the operations changes no byte of an operand. -/
theorem getElem?_hidden_of_not_address (m : Mapping) {start : Nat} (hps : Addressed start ps)
    (ha : ∀ p ∈ ps, p.address ≠ some (start + a)) :
    (ps.flatMap (Piece.hidden m))[a]? = (ps.flatMap Piece.bytes)[a]? := by
  induction ps generalizing start a with
  | nil => rfl
  | cons p ps ih =>
    have hstart : p.address = some start := by simpa using hps [] p ps rfl
    cases a with
    | zero => exact absurd hstart (ha p List.mem_cons_self)
    | succ i =>
      simp only [List.flatMap_cons, Piece.hidden, Piece.bytes, List.cons_append,
        List.getElem?_cons_succ]
      by_cases hi : i < p.operand.length
      · rw [List.getElem?_append_left hi, List.getElem?_append_left hi]
      · have hrest : Addressed (start + p.size) ps := by
          intro l q r heq
          rw [hps (p :: l) q r (by rw [heq]; rfl), extent_cons, Nat.add_assoc]
        have hle : p.operand.length ≤ i := Nat.le_of_not_lt hi
        rw [List.getElem?_append_right hle, List.getElem?_append_right hle]
        refine ih hrest fun q hq => ?_
        have haddress := ha q (List.mem_cons_of_mem p hq)
        rwa [show start + p.size + (i - p.operand.length) = start + (i + 1) by
          rw [Piece.size]; omega]

end Bytes

/-! ## The lowest level -/

theorem littleEndian_ofLittleEndian (bs : Bytes) : littleEndian bs.length (ofLittleEndian bs) = bs := by
  induction bs with
  | nil => rfl
  | cons b bs ih =>
    have hb := b.toNat_lt
    rw [List.length_cons, littleEndian, ofLittleEndian,
      show (b.toNat + 256 * ofLittleEndian bs) % 256 = b.toNat by omega,
      show (b.toNat + 256 * ofLittleEndian bs) / 256 = ofLittleEndian bs by omega, ih]
    simp

theorem newAddress_of_zero (hzero : ∀ n ∈ counts, n = 0) :
    newAddress counts ps k = extent (ps.take k) := by
  have htake : ∀ n ∈ counts.take k, n = 0 := fun n hn => hzero n (List.mem_of_mem_take hn)
  have hown : counts.getD k 0 = 0 := by
    rw [List.getD_eq_getElem?_getD]
    cases hk : counts[k]? with
    | none => rfl
    | some n => exact hzero n (List.mem_of_getElem? hk)
  rw [newAddress, spaced_of_zero htake, hown, Nat.add_zero]

/-- Without idle instructions, every operand is as it was. -/
theorem Relocated.operand_of_zero {r : Piece} (h : Relocated code counts p r)
    (hzero : ∀ n ∈ counts, n = 0) : r.operand = p.operand := by
  cases hj : p.isJump with
  | false => exact h.operand_eq hj
  | true =>
    have hlength : p.operand.length = 2 := by
      simp only [Piece.isJump, Bool.and_eq_true, decide_eq_true_eq] at hj
      exact hj.2
    have hsame : littleEndian 2 (ofLittleEndian p.operand) = p.operand := by
      rw [← hlength, littleEndian_ofLittleEndian]
    by_cases hto : ∃ q ∈ pieces code, q.address = some (ofLittleEndian p.operand)
    · obtain ⟨q, hq, ha⟩ := hto
      obtain ⟨k, hk⟩ := List.getElem?_of_mem hq
      have hnew := (h.to_instruction hj k q hk ha).1
      have hold := ((addressed_pieces code).address_eq hk).symm.trans ha
      rw [hnew, newAddress_of_zero hzero, Option.some.inj hold, hsame]
    · have hnone : ∀ q ∈ pieces code, q.address ≠ some (ofLittleEndian p.operand) :=
        fun q hq ha => hto ⟨q, hq, ha⟩
      by_cases hend : ofLittleEndian p.operand = code.length
      · have hnew := (h.to_end hj hnone hend).1
        rw [hnew, spaced_of_zero hzero, extent_pieces, ← hend, hsame]
      · exact h.elsewhere hj hnone hend

/-- If no idle instruction is put in, the code has its instructions where they were, with their operands,
and only the operations are hidden. -/
theorem flatMap_hidden_of_zero (m : Mapping) (hzero : ∀ n ∈ counts, n = 0)
    (h : List.Forall₂ (Relocated code counts) ps rs) :
    (spaced counts rs).flatMap (Piece.hidden m) = ps.flatMap (Piece.hidden m) := by
  rw [spaced_of_zero hzero]
  induction h with
  | nil => rfl
  | cons hp _ ih =>
    rw [List.flatMap_cons, List.flatMap_cons, ih, Piece.hidden, hp.op_eq, hp.operand_of_zero hzero]
    rfl

/-! ## Disguised code -/

theorem moved_idle (table : Table Nat Nat) (oldEnd newEnd : Nat) :
    moved table oldEnd newEnd Piece.idle = .ok Piece.idle := rfl

/-- Disguised code as it is put together, pass by pass. -/
theorem exists_moved_of_disguise {seed level : Int} {code' : Bytes}
    (h : disguise code seed level = .ok code') :
    ∃ (counts : List Nat) (rs : List Piece),
      counts.length = (pieces code).length ∧ (level < 2 → ∀ n ∈ counts, n = 0) ∧
      List.Forall₂ (fun p r => moved (addressesFrom 0 (spaced counts (pieces code))).1 code.length
        (addressesFrom 0 (spaced counts (pieces code))).2 p = .ok r) (pieces code) rs ∧
      code' = (spaced counts rs).flatMap (Piece.hidden (Mapping.ofSeed seed)) := by
  obtain ⟨qs, hqs, h⟩ := bind_eq_ok.1 h
  cases h
  obtain ⟨counts, hlength, hzero, hspread⟩ := exists_spread_eq (pieces code) seed level
  rw [← spread, hspread, relocate_eq] at hqs
  obtain ⟨rs, rfl, hmoved⟩ := exists_of_mapM_spaced (moved_idle ..) hlength hqs
  exact ⟨counts, rs, hlength, hzero, hmoved, rfl⟩

/-- Whatever the code, the seed and the level are, code that has been disguised is made of the instructions
of the code:

* these are the bytes of the code taken apart, each with the address that it stands at;
* a number of idle instructions is put in front of each of them, none below the second level;
* every instruction keeps its operation and its operand, except that a jump to an instruction holds the
  new address of that instruction, which is where its operation stands now, and a jump to the end of the
  code holds the new length;
* all this is written down with the operations hidden by the mapping of the seed.

So below the second level the code has the same length as before, and only bytes of operations differ. -/
theorem instructions_of_disguise {seed level : Int} {code' : Bytes}
    (h : disguise code seed level = .ok code') :
    (pieces code).flatMap Piece.bytes = code ∧ Addressed 0 (pieces code) ∧
    (∃ (counts : List Nat) (rs : List Piece),
      counts.length = (pieces code).length ∧ (level < 2 → ∀ n ∈ counts, n = 0) ∧
      List.Forall₂ (Relocated code counts) (pieces code) rs ∧
      code' = (spaced counts rs).flatMap (Piece.hidden (Mapping.ofSeed seed)) ∧
      code'.length = extent (spaced counts (pieces code)) ∧
      ∀ k p, (pieces code)[k]? = some p →
        code'[newAddress counts (pieces code) k]? = some ((Mapping.ofSeed seed).conceal p.op)) ∧
    (level < 2 → code'.length = code.length ∧
      ∀ a, (∀ p ∈ pieces code, p.address ≠ some a) → code'[a]? = code[a]?) := by
  obtain ⟨counts, rs, hlength, hzero, hmoved, rfl⟩ := exists_moved_of_disguise h
  have hrelocated : List.Forall₂ (Relocated code counts) (pieces code) rs :=
    hmoved.imp fun _ _ => relocated_of_moved hlength
  have hsize : List.Forall₂ (fun p r : Piece => r.size = p.size) (pieces code) rs :=
    hmoved.imp fun _ _ => size_of_moved
  have hbytes : (pieces code).flatMap Piece.bytes = code := flatMap_piecesFrom 0 code
  refine ⟨hbytes, addressed_pieces code, ⟨counts, rs, hlength, hzero, hrelocated, rfl, ?_, ?_⟩, ?_⟩
  · rw [length_flatMap_hidden, extent_spaced_congr counts hsize]
  · intro k p hp
    obtain ⟨hk, rfl⟩ := List.getElem?_eq_some_iff.1 hp
    have hk' : k < rs.length := hrelocated.length_eq ▸ hk
    have hop : rs[k].op = (pieces code)[k].op := (hrelocated.get hk hk').op_eq
    rw [← newAddress_congr hsize, getElem?_hidden_newAddress (hlength.trans hrelocated.length_eq)
      (List.getElem?_eq_getElem hk'), hop]
  · intro hlevel
    rw [flatMap_hidden_of_zero _ (hzero hlevel) hrelocated]
    refine ⟨by rw [length_flatMap_hidden, extent_pieces], fun a ha => ?_⟩
    rw [getElem?_hidden_of_not_address _ (addressed_pieces code) (by simpa using ha), hbytes]

/-- A jump to itself and one to the end, with an operand that is cut off behind them. -/
def selfJump : Bytes := [0x00, 0x40, 0x01, 0x00, 0x41, 0x09, 0x00, 0x01, 0x07]

theorem instructions_of_disguise_selfJump :
    ∃ code', disguise selfJump 7 2 = .ok code' ∧ ∃ (counts : List Nat) (rs : List Piece),
      counts.length = 5 ∧ code' = (spaced counts rs).flatMap (Piece.hidden (Mapping.ofSeed 7)) ∧
      ∃ r₁ r₂, rs[1]? = some r₁ ∧ HoldsAddress r₁.operand (newAddress counts (pieces selfJump) 1) ∧
        rs[2]? = some r₂ ∧ HoldsAddress r₂.operand code'.length := by
  obtain ⟨code', h⟩ : ∃ code', disguise selfJump 7 2 = .ok code' := exists_disguise 7 2 (by decide)
  obtain ⟨-, -, ⟨counts, rs, hlength, -, hrelocated, hcode, hend, -⟩, -⟩ := instructions_of_disguise h
  have hrs : 5 = rs.length := hrelocated.length_eq
  have hself := (hrelocated.get (i := 1) (by decide) (by omega)).to_instruction (by decide) 1 _ rfl rfl
  have hlast := (hrelocated.get (i := 2) (by decide) (by omega)).to_end (by decide) (by decide)
    (by decide)
  exact ⟨code', h, counts, rs, hlength, hcode, _, _, List.getElem?_eq_getElem _, hself,
    List.getElem?_eq_getElem _, hend ▸ hlast⟩

end Birokrasi.Disguise
