import Mathlib.Data.List.Chain
import Mathlib.Data.List.Nodup
import Birokrasi.Disguise.Flattening
import Birokrasi.Proofs.HiddenOperations

/-!
# Blocks tile the code

The scan for blocks moves by one byte or by three, over any bytes, and takes whatever ends a block to be
three bytes long. Still the block that is open starts at or before the address that the scan has come to,
and so the blocks lie one behind the other and leave no address out (`tiles_blocksFrom`). At most the last
one reaches beyond the code, by the operand that is missing there.

The blocks are numbered by a shuffle, whatever it draws, so each number below their count stands for
one of them (`numbering_numbered`). The main statement is `code_tiled_by_blocks`.
-/

namespace Birokrasi.Disguise

open Birokrasi.Bytecode
open Birokrasi.Text (Bytes)

/-! ## Tiles -/

/-- Blocks that lie one behind the other from an address on, until the end of code of this size. -/
inductive Tiles (size : Nat) : (start : Nat) → List Block → Prop
  | done {start : Nat} (hend : size ≤ start) : Tiles size start []
  | block {start stop : Nat} {later : List Block} (hstart : start < size) (hstop : start < stop)
      (hreach : stop ≤ size + 2) (hlater : Tiles size stop later) :
      Tiles size start (⟨start, stop⟩ :: later)

/-- The scan keeps the open block behind it, or at most level with it, and that is all it needs. -/
theorem tiles_blocksFrom (code : Array UInt8) {start i : Nat} (h : start ≤ i) :
    Tiles code.size start (blocksFrom code start i) := by
  fun_induction blocksFrom code start i with
  | case1 start i hi hends ih =>
    exact .block (by omega) (by omega) (by omega) (ih (Nat.le_refl _))
  | case2 start i hi hends hpos ih => exact ih (by omega)
  | case3 start i hi hopen =>
    exact .block hopen hopen (by omega) (.done (Nat.le_refl _))
  | case4 start i hi hopen => exact .done (by omega)

theorem tiles_blocks (code : Bytes) : Tiles code.length 0 (blocks code) :=
  tiles_blocksFrom code.toArray (Nat.le_refl 0)

namespace Tiles

variable {size start : Nat} {bs : List Block}

theorem le_start (h : Tiles size start bs) : ∀ b ∈ bs, start ≤ b.start := by
  induction h with
  | done => simp
  | block _ hstop _ _ ih =>
    intro b hb
    rcases List.mem_cons.1 hb with rfl | hb
    · exact Nat.le_refl _
    · have := ih b hb
      omega

theorem bounds (h : Tiles size start bs) :
    ∀ b ∈ bs, b.start < size ∧ b.stop ≤ size + 2 := by
  induction h with
  | done => simp
  | block hstart _ hreach _ ih =>
    intro b hb
    rcases List.mem_cons.1 hb with rfl | hb
    · exact ⟨hstart, hreach⟩
    · exact ih b hb

/-- The first block starts where the tiles do, if there is anything left to tile. -/
theorem head (h : Tiles size start bs) (hlt : start < size) :
    ∃ b, bs.head? = some b ∧ b.start = start := by
  cases h with
  | done hend => omega
  | block => exact ⟨_, rfl, rfl⟩

theorem isChain (h : Tiles size start bs) : bs.IsChain fun b c => b.stop = c.start := by
  induction h with
  | done => exact .nil
  | block _ _ _ hlater ih =>
    cases hlater with
    | done => exact .singleton _
    | block => exact .cons_cons rfl ih

theorem increasing (h : Tiles size start bs) : bs.Pairwise fun b c => b.start < c.start := by
  induction h with
  | done => exact .nil
  | block _ hstop _ hlater ih =>
    refine .cons (fun c hc => ?_) ih
    have := hlater.le_start c hc
    dsimp only
    omega

/-- A block that another one follows ends within the code. -/
theorem stop_le (h : Tiles size start bs) : ∀ b ∈ bs.dropLast, b.stop ≤ size := by
  induction h with
  | done => simp
  | block _ _ _ hlater ih =>
    cases hlater with
    | done => simp
    | block hstart =>
      intro b hb
      rcases List.mem_cons.1 hb with rfl | hb
      · exact Nat.le_of_lt hstart
      · exact ih b hb

theorem existsUnique (h : Tiles size start bs) {address : Nat} (hlow : start ≤ address)
    (hhigh : address < size) : ∃! b, b ∈ bs ∧ b.start ≤ address ∧ address < b.stop := by
  induction h with
  | done => omega
  | @block start stop later _ hstop _ hlater ih =>
    by_cases hin : address < stop
    · -- The blocks behind start at its end at the earliest.
      refine ⟨⟨start, stop⟩, ⟨List.mem_cons_self, hlow, hin⟩, ?_⟩
      rintro b ⟨hb, hfrom, -⟩
      rcases List.mem_cons.1 hb with rfl | hb
      · rfl
      · have := hlater.le_start b hb
        omega
    · obtain ⟨b, ⟨hb, hfrom, hto⟩, honly⟩ := ih (by omega)
      refine ⟨b, ⟨List.mem_cons_of_mem _ hb, hfrom, hto⟩, ?_⟩
      rintro c ⟨hc, hcfrom, hcto⟩
      rcases List.mem_cons.1 hc with rfl | hc
      · exact absurd hcto hin
      · exact honly c ⟨hc, hcfrom, hcto⟩

end Tiles

/-- Blocks that divide all the addresses of code of a size among them. -/
structure Tiling (size : Nat) (bs : List Block) : Prop where
  increasing : bs.Pairwise fun b c => b.start < c.start
  /-- The first block starts at the first address, if there is any. -/
  first : 0 < size → ∃ b, bs.head? = some b ∧ b.start = 0
  /-- Each later one starts where the one before it ends. -/
  adjacent : bs.IsChain fun b c => b.stop = c.start
  start_lt : ∀ b ∈ bs, b.start < size
  covered : ∀ address < size, ∃! b, b ∈ bs ∧ b.start ≤ address ∧ address < b.stop
  /-- All but the last one end within the code. -/
  within : ∀ b ∈ bs.dropLast, b.stop ≤ size
  /-- No block reaches farther than two bytes beyond the code. -/
  reach : ∀ b ∈ bs, b.stop ≤ size + 2

theorem tiling_blocks (code : Bytes) : Tiling code.length (blocks code) := by
  have htiles := tiles_blocks code
  exact {
    increasing := htiles.increasing
    first := htiles.head
    adjacent := htiles.isChain
    start_lt := fun b hb => (htiles.bounds b hb).1
    covered := fun address => htiles.existsUnique (Nat.zero_le address)
    within := htiles.stop_le
    reach := fun b hb => (htiles.bounds b hb).2 }

/-! ## Numbers -/

/-- Numbers for the starts of blocks: each start has one of those below their count, and each of these
belongs to one start. -/
structure Numbering (starts : List Nat) (states : Table Nat Nat) : Prop where
  keys : states.keys = starts
  nodup : starts.Nodup
  lt : ∀ start ∈ starts, ∃ n < starts.length, states.get? start = some n
  existsUnique : ∀ n < starts.length, ∃! start, states.get? start = some n

theorem numbering_of_perm {states : Table Nat Nat} (hkeys : states.keys.Nodup)
    (hnumbers : (states.map Prod.snd).Perm (List.range states.length)) : Numbering states.keys states := by
  have hlength : states.keys.length = states.length := List.length_map _
  refine ⟨rfl, hkeys, ?_, ?_⟩
  · intro start hstart
    obtain ⟨⟨_, n⟩, hmem, rfl⟩ := List.mem_map.1 hstart
    have hn : n ∈ List.range states.length := hnumbers.subset (List.mem_map_of_mem hmem)
    exact ⟨n, hlength ▸ List.mem_range.1 hn, Table.get?_eq_some_of_mem hkeys hmem⟩
  · intro n hn
    have hdrawn : n ∈ states.map Prod.snd := hnumbers.symm.subset (List.mem_range.2 (hlength ▸ hn))
    obtain ⟨⟨start, _⟩, hmem, rfl⟩ := List.mem_map.1 hdrawn
    refine ⟨start, Table.get?_eq_some_of_mem hkeys hmem, fun other hother => ?_⟩
    -- No number comes twice, so the two starts belong to the same entry.
    have hnodup : (states.map Prod.snd).Nodup := hnumbers.nodup_iff.2 List.nodup_range
    exact congrArg Prod.fst
      (List.inj_on_of_nodup_map hnodup (Table.mem_of_get?_eq_some hother) hmem rfl)

theorem length_shuffle (bs : List Block) (g : Twister) :
    (g.shuffle (List.range bs.length)).1.length = bs.length :=
  (Twister.shuffle_perm _ g).length_eq.trans List.length_range

theorem keys_numbered (bs : List Block) (g : Twister) :
    Table.keys (numbered bs g) = bs.map Block.start :=
  List.map_fst_zip (by rw [List.length_map, length_shuffle])

theorem length_numbered (bs : List Block) (g : Twister) : (numbered bs g).length = bs.length := by
  rw [numbered, List.length_zip, List.length_map, length_shuffle, Nat.min_self]

/-- The numbers are those below the count of the blocks in the order that the shuffle draws. -/
theorem map_snd_numbered (bs : List Block) (g : Twister) :
    (numbered bs g).map Prod.snd = (g.shuffle (List.range bs.length)).1 :=
  List.map_snd_zip (by rw [List.length_map, length_shuffle])

theorem numbering_numbered {bs : List Block} (h : (bs.map Block.start).Nodup) (g : Twister) :
    Numbering (bs.map Block.start) (numbered bs g) := by
  rw [← keys_numbered bs g] at h ⊢
  refine numbering_of_perm h ?_
  rw [map_snd_numbered, length_numbered]
  exact Twister.shuffle_perm _ g

/-! ## Flattened code -/

theorem length_pushNumber (n : Nat) : (pushNumber n).length = 3 := rfl

theorem length_dispatcher (states : List (Nat × Nat)) :
    (dispatcher states).length = 3 * states.length + 4 := by
  have hpushes : (states.flatMap fun e => pushNumber e.2).length = 3 * states.length := by
    induction states with
    | nil => rfl
    | cons e rest ih =>
      rw [List.flatMap_cons, List.length_append, length_pushNumber, ih, List.length_cons]
      omega
  rw [dispatcher, List.length_append, List.length_append, hpushes, length_pushNumber]
  simp only [List.length_singleton]
  omega

/-- The blocks of any code divide its addresses among them. Whatever generator numbers them, their
starts are numbered one to one, from zero on, and going through the numbers takes three bytes for each
block and four more; flattened code is the case of the generator of a seed. -/
theorem code_tiled_by_blocks (code : Bytes) :
    Tiling code.length (blocks code) ∧
    (∀ g : Twister,
      Numbering ((blocks code).map Block.start) (numbered (blocks code) g) ∧
      (dispatcher (numbered (blocks code) g)).length = 3 * (blocks code).length + 4) ∧
    ∀ seed : Int,
      Numbering ((blocks code).map Block.start) (flatten code seed).2 ∧
      (flatten code seed).1.length = 3 * (blocks code).length + 4 := by
  have htiling := tiling_blocks code
  have hnodup : ((blocks code).map Block.start).Nodup :=
    List.pairwise_map.2 (htiling.increasing.imp Nat.ne_of_lt)
  have hdispatched : ∀ g : Twister,
      Numbering ((blocks code).map Block.start) (numbered (blocks code) g) ∧
      (dispatcher (numbered (blocks code) g)).length = 3 * (blocks code).length + 4 := by
    intro g
    refine ⟨numbering_numbered hnodup g, ?_⟩
    rw [length_dispatcher, length_numbered]
  exact ⟨htiling, hdispatched, fun seed => hdispatched (Twister.ofSeed seed)⟩

end Birokrasi.Disguise
