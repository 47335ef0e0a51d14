import Birokrasi.Machine.Guarded
import Birokrasi.Proofs.HiddenOperations

/-!
# Mappings can be undone

A mapping hides the operations behind bytes of the cover in an order that is drawn. Operations and covering
bytes overlap as numbers, and still each way undoes the other one: on all operations, and on all bytes
that one is hidden behind (`Invertible`). Nothing is asked of the draws but that they exchange bytes, so
it holds of every seed and of every other sequence of draws (`mappings_invertible`).
-/

namespace Birokrasi

theorem Table.get?_eq_none_of_not_mem {κ α : Type} [DecidableEq κ] {t : Table κ α} {key : κ}
    (h : key ∉ t.keys) : t.get? key = none := by
  induction t with
  | nil => rfl
  | cons e rest ih =>
    obtain ⟨hne, hrest⟩ := not_or.1 fun hor => h (List.mem_cons.2 hor)
    rw [get?, if_neg (Ne.symm hne), ih hrest]

namespace Disguise.Mapping

open Birokrasi.Bytecode
open Birokrasi.Machine (Guarded)

/-- The mapping that hides the operations behind the cover after exchanges at the places drawn. -/
def ofDraws (seed : Int) (draws : List Nat) (rng : Twister) : Mapping :=
  ofDraw seed (Twister.exchanged draws cover, rng)

/-- The bytes that operations are hidden behind. -/
def image (m : Mapping) : List UInt8 := m.forward.map Prod.snd

/-- A mapping that can be undone, in both directions. -/
structure Invertible (m : Mapping) : Prop where
  /-- There are as many bytes as operations. -/
  length_image : m.image.length = 23
  nodup_image : m.image.Nodup
  /-- Each of them stands for an operation, and for each operation there is one. -/
  image_eq : m.image = Opcode.all.map fun op => m.conceal op.byte
  covered : ∀ b ∈ m.image, 0x10 ≤ b ∧ b ≤ 0xEF
  reveal_conceal : ∀ op : Opcode, m.reveal (m.conceal op.byte) = op.byte
  conceal_reveal : ∀ b ∈ m.image, m.conceal (m.reveal b) = b
  /-- The idle operation is also known by its own byte, in a machine with the mapping or with none. -/
  idle : ∀ (g : Guarded), ∀ mapping ∈ [none, some m],
    ({ g with mapping } : Guarded).reveal 0x00 = Opcode.nop.byte

theorem mem_cover {b : UInt8} (h : b ∈ cover) : 0x10 ≤ b ∧ b ≤ 0xEF := by
  obtain ⟨i, hi, rfl⟩ := List.mem_map.1 h
  have hi := List.mem_range.1 hi
  rw [UInt8.le_iff_toNat_le, UInt8.le_iff_toNat_le, Nat.toUInt8_eq, UInt8.toNat_ofNat']
  simp only [UInt8.reduceToNat]
  omega

/-- A byte that no operation is hidden behind stands for itself. -/
theorem reveal_of_not_mem {m : Mapping} {b : UInt8} (h : b ∉ m.image) : m.reveal b = b := by
  have hkeys : b ∉ Table.keys (m.forward.map Prod.swap) := by
    rwa [Table.keys, List.map_map]
  rw [reveal, Table.get?_eq_none_of_not_mem hkeys]
  rfl

theorem invertible_ofDraw (seed : Int) {drawn : List UInt8 × Twister} (h : drawn.1.Perm cover) :
    (ofDraw seed drawn).Invertible := by
  have hcovered : ∀ b ∈ (ofDraw seed drawn).image, 0x10 ≤ b ∧ b ≤ 0xEF := fun b hb =>
    mem_cover (h.subset ((snd_zip_sublist _ _).subset hb))
  have himage : (ofDraw seed drawn).image =
      Opcode.all.map fun op => (ofDraw seed drawn).conceal op.byte :=
    calc (ofDraw seed drawn).forward.map Prod.snd
      _ = (ofDraw seed drawn).forward.map fun e => (ofDraw seed drawn).conceal e.1 :=
        List.map_congr_left fun _ he => (conceal_of_mem seed h he).symm
      _ = (ofDraw seed drawn).forward.keys.map (ofDraw seed drawn).conceal := by
        rw [Table.keys, List.map_map, Function.comp_def]
      _ = Opcode.all.map fun op => (ofDraw seed drawn).conceal op.byte := by
        rw [keys_forward seed h, List.map_map, Function.comp_def]
  refine ⟨?_, nodup_forward seed h, ?_, hcovered, reveal_conceal_ofDraw seed h, ?_, ?_⟩
  · rw [himage, List.length_map]
    rfl
  · exact himage
  · intro b hb
    obtain ⟨⟨key, hidden⟩, hmem, rfl⟩ := List.mem_map.1 hb
    rw [reveal_of_mem seed h hmem, conceal_of_mem seed h hmem]
  · intro g mapping hmapping
    have hidle : (ofDraw seed drawn).reveal 0x00 = 0x00 := by
      refine reveal_of_not_mem fun hmem => ?_
      exact absurd (hcovered _ hmem).1 (by decide)
    simp only [List.mem_cons, List.not_mem_nil, or_false] at hmapping
    rcases hmapping with rfl | rfl
    · rfl
    · exact hidle

/-- Every mapping can be undone: that of any seed, and that of any sequence of draws. -/
theorem mappings_invertible (seed : Int) :
    (ofSeed seed).Invertible ∧
      ∀ (draws : List Nat) (rng : Twister), (ofDraws seed draws rng).Invertible := by
  constructor
  · rw [ofSeed]
    exact invertible_ofDraw seed (Twister.shuffle_perm cover _)
  · intro draws rng
    rw [ofDraws]
    refine invertible_ofDraw seed ?_
    dsimp only
    exact Twister.exchanged_perm draws cover

end Disguise.Mapping

end Birokrasi
