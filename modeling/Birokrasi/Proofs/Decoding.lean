import Birokrasi.Bytecode.Listing
import Birokrasi.Proofs.EmittedCode
import Birokrasi.Proofs.RelocatedCode
import Birokrasi.Structured.Parser

/-!
# How compiled code is read

Two readers take code apart: the one that disguises it (`pieces`) and the one that lists it. They find
instructions at the same addresses, whatever the code. Those are the addresses at which a program's
instructions were emitted as long as an operation is read with an operand exactly if it was written
with one. Meetings are not: their operand is written unless it is zero, and never read. So the readers
are right up to the first meeting with an operand, and take that operand for operations
(`decoders_agree_iff`).
-/

namespace Birokrasi.Bytecode

open Birokrasi.Disguise (Piece pieces piecesFrom)
open Birokrasi.Structured (Program)
open Birokrasi.Text (Bytes)

/-! ## Listings -/

/-- The address that a line of a listing starts with. -/
def listedAddress (line : String) : Nat :=
  Nat.ofDigitChars 10 (line.toList.takeWhile Char.isDigit) 0

/-- The addresses of the instructions that are found in code. -/
def foundAddresses (code : Bytes) : List Nat := (pieces code).filterMap Piece.address

theorem ofDigitChars_zeros (n : Nat) (ds : List Char) :
    Nat.ofDigitChars 10 (Decimal.zeros n ++ ds) 0 = Nat.ofDigitChars 10 ds 0 := by
  unfold Decimal.zeros
  induction n with
  | zero => rfl
  | succ n ih =>
    rw [List.replicate_succ, List.cons_append, ← ih]
    rfl

theorem listedAddress_padded (width n : Nat) (rest : String) :
    listedAddress (Decimal.padded width n ++ "  " ++ rest) = n := by
  have hdigits : ∀ c ∈ Decimal.zeros (width - (Decimal.natDigits n).length) ++ Decimal.natDigits n,
      c.isDigit := by
    intro c hc
    rcases List.mem_append.1 hc with hc | hc
    · rw [List.eq_of_mem_replicate hc]
      rfl
    · exact Nat.isDigit_of_mem_toDigits (by decide) (by decide) hc
  unfold listedAddress Decimal.padded
  simp only [String.toList_append, String.toList_ofList, List.append_assoc]
  rw [← List.append_assoc, List.takeWhile_append_of_pos hdigits]
  show Nat.ofDigitChars 10 (_ ++ []) 0 = n
  rw [List.append_nil, ofDigitChars_zeros]
  exact Nat.ofDigitChars_toDigits (by decide) (by decide)

/-- A listing has a line for each instruction that is found, with its address. -/
theorem listedAddress_listingFrom (strings : List String) (start : Nat) (code : Bytes) :
    (listingFrom strings start code).map listedAddress =
      (piecesFrom start code).filterMap Piece.address := by
  fun_induction piecesFrom start code with
  | case1 => rfl
  | case2 start b low high rest h ih =>
    obtain ⟨op, hop⟩ := Option.isSome_iff_exists.1 h
    rw [listingFrom]
    simp only [hop, List.map_cons, ih]
    rw [String.append_assoc, listedAddress_padded]
    rfl
  | case3 start b low high rest h ih =>
    rw [Bool.not_eq_true, Option.isSome_eq_false_iff, Option.isNone_iff_eq_none] at h
    rw [listingFrom]
    simp only [h, List.map_cons, ih, listedAddress_padded]
    rfl
  | case4 start b rest h ih =>
    rw [listingFrom.eq_3 _ _ _ _ h, List.map_cons, ih, listedAddress_padded]
    rfl

/-! ## Instructions -/

/-- An instruction as it should be found at its address. -/
def Instr.piece (e : Nat × Instr) : Piece where
  op := e.2.op.byte
  operand := if e.2.wide then littleEndian 2 e.2.operand else []
  address := some e.1

section Reading

variable {start : Nat} {b : UInt8} {code rest : Bytes} {i : Instr} {is : List Instr}

/-- An operation without an operand is found alone, whatever follows it. -/
theorem piecesFrom_narrow (h : (Opcode.ofByte? b).filter carriesOperand = none) :
    piecesFrom start (b :: rest) = ⟨b, [], some start⟩ :: piecesFrom (start + 1) rest := by
  rcases rest with _ | ⟨low, _ | ⟨high, rest⟩⟩
  · rfl
  · rfl
  · rw [piecesFrom, if_neg (by simp [h])]

theorem piecesFrom_wide {low high : UInt8} {op : Opcode}
    (h : (Opcode.ofByte? b).filter carriesOperand = some op) :
    piecesFrom start (b :: low :: high :: rest) =
      ⟨b, [low, high], some start⟩ :: piecesFrom (start + 3) rest := by
  rw [piecesFrom, if_pos (by simp [h])]

theorem filter_carriesOperand (op : Opcode) :
    (Opcode.ofByte? op.byte).filter carriesOperand = if carriesOperand op then some op else none := by
  rw [Opcode.ofByte?_byte, Option.filter_some]

/-- A regular instruction is found as it was written. -/
theorem piecesFrom_regular (h : i.Regular) :
    piecesFrom start (i.bytes ++ rest) =
      Instr.piece (start, i) :: piecesFrom (start + i.size) rest := by
  have hfilter := filter_carriesOperand i.op
  unfold Instr.Regular at h
  unfold Instr.bytes Instr.piece Instr.size
  by_cases hw : i.wide
  · rw [← h, if_pos hw] at hfilter
    simp only [hw, if_true]
    exact piecesFrom_wide hfilter
  · rw [← h, if_neg hw] at hfilter
    simp only [hw, Bool.false_eq_true, if_false]
    exact piecesFrom_narrow hfilter

theorem piecesFrom_assemble (h : ∀ i ∈ is, i.Regular) :
    piecesFrom start (assemble is ++ rest) =
      (located start is).map Instr.piece ++ piecesFrom (start + (assemble is).length) rest := by
  induction is generalizing start with
  | nil => rfl
  | cons i is ih =>
    obtain ⟨hi, his⟩ := List.forall_mem_cons.1 h
    have hsplit : assemble (i :: is) ++ rest = i.bytes ++ (assemble is ++ rest) := by
      simp [assemble]
    rw [hsplit, piecesFrom_regular hi, ih his, located, List.map_cons, List.cons_append,
      length_assemble_cons, Nat.add_assoc]

theorem filterMap_piece (es : List (Nat × Instr)) :
    (es.map Instr.piece).filterMap Piece.address = es.map Prod.fst := by
  induction es with
  | nil => rfl
  | cons e es ih =>
    have hhead : (Instr.piece e).address = some e.1 := rfl
    rw [List.map_cons, List.filterMap_cons_some hhead, ih, List.map_cons]

/-- The first byte of code is always taken for an operation. -/
theorem exists_piecesFrom (start : Nat) (b : UInt8) (rest : Bytes) :
    ∃ p ps, piecesFrom start (b :: rest) = p :: ps ∧ p.address = some start := by
  rcases rest with _ | ⟨low, _ | ⟨high, rest⟩⟩
  · exact ⟨_, _, rfl, rfl⟩
  · exact ⟨_, _, rfl, rfl⟩
  · rw [piecesFrom]
    split
    · exact ⟨_, _, rfl, rfl⟩
    · exact ⟨_, _, rfl, rfl⟩

/-- The operand of a meeting is read as instructions of its own. -/
theorem piecesFrom_meeting {n : Nat} (h : n ≠ 0) :
    piecesFrom start (Instr.bytes ⟨.meeting, n⟩ ++ rest) =
      ⟨Opcode.meeting.byte, [], some start⟩ ::
        piecesFrom (start + 1) (littleEndian 2 n ++ rest) := by
  have hwide : Instr.wide ⟨.meeting, n⟩ = true := by simp [Instr.wide, h]
  unfold Instr.bytes
  rw [if_pos hwide]
  exact piecesFrom_narrow (filter_carriesOperand .meeting)

end Reading

/-! ## Programs -/

/-- The addresses at which the instructions of a program are emitted. -/
def emittedAddresses (p : Program) : List Nat := (located 0 (instructions p).1).map Prod.fst

/-- A meeting that is written with an operand. -/
def Instr.Repeats (i : Instr) : Prop := i.op = .meeting ∧ i.operand ≠ 0

instance (i : Instr) : Decidable i.Repeats :=
  inferInstanceAs (Decidable (i.op = .meeting ∧ i.operand ≠ 0))

theorem regular_of_not_repeats {p : Program} {i : Instr} (hi : i ∈ (instructions p).1)
    (h : ¬ i.Repeats) : i.Regular := by
  obtain ⟨is, b, hinstr, hplaced, -, -⟩ := exists_placed p
  rw [hinstr] at hi
  rcases List.mem_append.1 hi with hi | hi
  · by_cases hop : i.op = .meeting
    · have hzero : i.operand = 0 := Decidable.byContradiction fun hne => h ⟨hop, hne⟩
      unfold Instr.Regular Instr.wide
      rw [hop, hzero]
      rfl
    · exact hplaced.regular i hi hop
  · rw [List.mem_singleton.1 hi]
    rfl

/-- The first meeting with an operand, and instructions that are read as they were written before
it. -/
theorem exists_first_repeats {is : List Instr} (h : ¬ ∀ i ∈ is, ¬ i.Repeats) :
    ∃ l n r, is = l ++ ⟨.meeting, n⟩ :: r ∧ n ≠ 0 ∧ ∀ i ∈ l, ¬ i.Repeats := by
  cases hfind : is.find? fun i => decide i.Repeats with
  | none =>
    rw [List.find?_eq_none] at hfind
    exact absurd (fun i hi => by simpa using hfind i hi) h
  | some m =>
    obtain ⟨hm, l, r, heq, hl⟩ := List.find?_eq_some_iff_append.1 hfind
    obtain ⟨op, n⟩ := m
    obtain ⟨rfl, hn⟩ : op = .meeting ∧ n ≠ 0 := of_decide_eq_true hm
    exact ⟨l, n, r, heq, hn, fun i hi => by simpa using hl i hi⟩

/-- The instructions that are found up to the first meeting with an operand. -/
theorem pieces_of_repeats {p : Program} {l r : List Instr} {n : Nat}
    (h : (instructions p).1 = l ++ ⟨.meeting, n⟩ :: r) (hn : n ≠ 0) (hl : ∀ i ∈ l, ¬ i.Repeats) :
    pieces (compile p).code =
      (located 0 l).map Instr.piece ++ ⟨Opcode.meeting.byte, [], some (assemble l).length⟩ ::
        piecesFrom ((assemble l).length + 1) (littleEndian 2 n ++ assemble r) := by
  have hregular : ∀ i ∈ l, i.Regular := fun i hi =>
    regular_of_not_repeats (p := p) (h ▸ List.mem_append_left _ hi) (hl i hi)
  have hcode : (compile p).code = assemble l ++ (Instr.bytes ⟨.meeting, n⟩ ++ assemble r) := by
    show assemble (instructions p).1 = _
    rw [h, assemble_append]
    rfl
  rw [pieces, hcode, piecesFrom_assemble hregular, piecesFrom_meeting hn, Nat.zero_add]

/-- Where the operand of a meeting is read, addresses are found that nothing was emitted at. -/
theorem foundAddresses_ne {p : Program} {l r : List Instr} {n : Nat}
    (h : (instructions p).1 = l ++ ⟨.meeting, n⟩ :: r) (hn : n ≠ 0) (hl : ∀ i ∈ l, ¬ i.Repeats) :
    foundAddresses (compile p).code ≠ emittedAddresses p := by
  intro heq
  obtain ⟨q, qs, hq, hqa⟩ := exists_piecesFrom ((assemble l).length + 1) (n % 256).toUInt8
    (littleEndian 1 (n / 256) ++ assemble r)
  have hsize : Instr.size ⟨.meeting, n⟩ = 3 := by simp [Instr.size, Instr.wide, hn]
  rw [foundAddresses, pieces_of_repeats h hn hl, emittedAddresses, h, located_append, List.map_append,
    List.filterMap_append, filterMap_piece, Nat.zero_add] at heq
  have heq := List.append_cancel_left heq
  have hread : piecesFrom ((assemble l).length + 1) (littleEndian 2 n ++ assemble r) = q :: qs := hq
  rw [hread, located, hsize] at heq
  simp only [List.filterMap_cons, hqa, List.map_cons, List.cons.injEq, true_and] at heq
  -- The next instruction was emitted three bytes after the meeting, if there is one.
  cases r with
  | nil => cases heq
  | cons i r =>
    simp only [located, List.map_cons, List.cons.injEq] at heq
    omega

/-- Without such a meeting, the instructions are found as they were written. -/
theorem pieces_of_not_repeats {p : Program} (h : ∀ i ∈ (instructions p).1, ¬ i.Repeats) :
    pieces (compile p).code = (located 0 (instructions p).1).map Instr.piece := by
  have hregular : ∀ i ∈ (instructions p).1, i.Regular := fun i hi => regular_of_not_repeats hi (h i hi)
  have hread : piecesFrom 0 (assemble (instructions p).1 ++ []) =
      (located 0 (instructions p).1).map Instr.piece ++ [] :=
    piecesFrom_assemble hregular
  rw [List.append_nil, List.append_nil] at hread
  exact hread

theorem forall_not_repeats_iff {is : List Instr} :
    (∀ i ∈ is, ¬ i.Repeats) ↔ ∀ i ∈ is, i.op = .meeting → i.operand = 0 := by
  simp [Instr.Repeats]

theorem foundAddresses_eq_iff (p : Program) :
    foundAddresses (compile p).code = emittedAddresses p ↔
      ∀ i ∈ (instructions p).1, ¬ i.Repeats := by
  constructor
  · intro heq
    refine Decidable.byContradiction fun hnot => ?_
    obtain ⟨l, n, r, hsplit, hn, hl⟩ := exists_first_repeats hnot
    exact foundAddresses_ne hsplit hn hl heq
  · intro h
    rw [foundAddresses, pieces_of_not_repeats h, filterMap_piece]
    rfl

/-- Both readers find instructions at the same addresses. These are the ones at which the program's
instructions were emitted if and only if no meeting is written with an operand. Then the instructions
are found as they were written. Otherwise they are found so up to the first such meeting, and the bytes
of its operand are taken for operations. -/
theorem decoders_agree_iff (p : Program) :
    (listingFrom (compile p).strings 0 (compile p).code).map listedAddress =
        foundAddresses (compile p).code ∧
      (foundAddresses (compile p).code = emittedAddresses p ↔
        ∀ i ∈ (instructions p).1, i.op = .meeting → i.operand = 0) ∧
      (foundAddresses (compile p).code = emittedAddresses p →
        pieces (compile p).code = (located 0 (instructions p).1).map Instr.piece) ∧
      (foundAddresses (compile p).code ≠ emittedAddresses p →
        ∃ l n r, (instructions p).1 = l ++ ⟨.meeting, n⟩ :: r ∧ n ≠ 0 ∧
          (∀ i ∈ l, i.op = .meeting → i.operand = 0) ∧
          pieces (compile p).code =
            (located 0 l).map Instr.piece ++ ⟨Opcode.meeting.byte, [], some (assemble l).length⟩ ::
              piecesFrom ((assemble l).length + 1) (littleEndian 2 n ++ assemble r)) := by
  refine ⟨listedAddress_listingFrom _ 0 _, ?_, fun heq => ?_, fun hne => ?_⟩
  · rw [foundAddresses_eq_iff, forall_not_repeats_iff]
  · exact pieces_of_not_repeats ((foundAddresses_eq_iff p).1 heq)
  · rw [Ne, foundAddresses_eq_iff] at hne
    obtain ⟨l, n, r, hsplit, hn, hl⟩ := exists_first_repeats hne
    exact ⟨l, n, r, hsplit, hn, forall_not_repeats_iff.1 hl, pieces_of_repeats hsplit hn hl⟩

/-- The program of two lines that meets twice, and does nothing, is read with an instruction where its
meeting has an operand, and without its last one. -/
theorem decoders_disagree :
    ∃ p, Program.ofLines ["Rapat(2)", "selesaiRapat"] = .ok p ∧
      (compile p).code = [0x01, 0x00, 0x00, 0x62, 0x03, 0x00, 0xFF] ∧
      emittedAddresses p = [0, 3, 6] ∧ foundAddresses (compile p).code = [0, 3, 4] ∧
      (listingFrom (compile p).strings 0 (compile p).code).map listedAddress = [0, 3, 4] :=
  ⟨⟨[.meeting 1 "2" []]⟩, rfl, by decide +kernel, by decide +kernel, by decide +kernel,
    by decide +kernel⟩

end Birokrasi.Bytecode
