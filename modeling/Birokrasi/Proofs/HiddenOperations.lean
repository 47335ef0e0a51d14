import Birokrasi.Disguise.Mapping

/-!
# Hidden operations are found again

A shuffle is a sequence of exchanges at the places that are drawn (`shuffle_eq`), and so a permutation,
whatever is drawn (`exchanged_perm`). A mapping therefore hides different operations behind different
bytes, and `reveal_conceal` says that each of them is found again.
-/

namespace Birokrasi

namespace Twister

variable {α : Type}

theorem swapIfInBounds_perm (items : Array α) (i j : Nat) :
    (items.swapIfInBounds i j).Perm items := by
  rw [Array.swapIfInBounds_def]
  split
  · split
    · exact Array.swap_perm _ _
    · exact .refl _
  · exact .refl _

/-- The items after exchanges from the last place down, each with the place that is drawn for it. -/
def exchangedFrom : (last : Nat) → (draws : List Nat) → Array α → Array α
  | i + 1, j :: draws, items => exchangedFrom i draws (items.swapIfInBounds (i + 1) j)
  | _, _, items => items

/-- The items after exchanges with the places that are drawn. -/
def exchanged (draws : List Nat) (items : List α) : List α :=
  (exchangedFrom (items.length - 1) draws items.toArray).toList

/-- The places that a generator draws for a shuffle. -/
def placesDrawn : (last : Nat) → Twister → List Nat
  | 0, _ => []
  | i + 1, g => (g.below (i + 2)).1 :: placesDrawn i (g.below (i + 2)).2

theorem exchangedFrom_perm (last : Nat) (draws : List Nat) (items : Array α) :
    (exchangedFrom last draws items).Perm items := by
  fun_induction exchangedFrom last draws items with
  | case1 i j draws items ih => exact ih.trans (swapIfInBounds_perm items (i + 1) j)
  | case2 => exact .refl _

/-- Exchanges keep the items, whatever is drawn. -/
theorem exchanged_perm (draws : List Nat) (items : List α) : (exchanged draws items).Perm items :=
  Array.perm_iff_toList_perm.1 (exchangedFrom_perm (items.length - 1) draws items.toArray)

theorem shuffleFrom_eq (last : Nat) (items : Array α) (g : Twister) :
    (shuffleFrom last items g).1 = exchangedFrom last (placesDrawn last g) items := by
  induction last generalizing items g with
  | zero => rfl
  | succ i ih => exact ih _ _

/-- A shuffle makes the exchanges that its generator draws. -/
theorem shuffle_eq (items : List α) (g : Twister) :
    (g.shuffle items).1 = exchanged (placesDrawn (items.length - 1) g) items :=
  congrArg Array.toList (shuffleFrom_eq (items.length - 1) items.toArray g)

theorem shuffle_perm (items : List α) (g : Twister) : (g.shuffle items).1.Perm items := by
  rw [shuffle_eq]
  exact exchanged_perm _ items

end Twister

namespace Table

variable {κ α : Type} [DecidableEq κ]

theorem get?_eq_some_of_mem {t : Table κ α} (h : t.keys.Nodup) {key : κ} {value : α}
    (hm : (key, value) ∈ t) : t.get? key = some value := by
  induction t with
  | nil => cases hm
  | cons e rest ih =>
    obtain ⟨k, v⟩ := e
    obtain ⟨hk, hrest⟩ := List.nodup_cons.1 h
    rw [get?]
    cases List.mem_cons.1 hm with
    | inl heq =>
      cases heq
      rw [if_pos rfl]
    | inr hmem =>
      have hne : k ≠ key := fun hkey =>
        hk (List.mem_map.2 ⟨_, hmem, hkey.symm⟩)
      rw [if_neg hne, ih hrest hmem]

theorem mem_of_get?_eq_some {t : Table κ α} {key : κ} {value : α} (h : t.get? key = some value) :
    (key, value) ∈ t := by
  induction t with
  | nil => cases h
  | cons e rest ih =>
    obtain ⟨k, v⟩ := e
    rw [get?] at h
    split at h
    next hk =>
      cases h
      rw [hk]
      exact List.mem_cons_self
    next => exact List.mem_cons_of_mem _ (ih h)

end Table

namespace Disguise.Mapping

open Birokrasi.Bytecode

theorem nodup_cover : cover.Nodup := by
  rw [List.Nodup, cover, List.pairwise_map]
  refine List.nodup_range.imp_of_mem fun {i j} hi hj hne heq => hne ?_
  have hi := List.mem_range.1 hi
  have hj := List.mem_range.1 hj
  have hnat := congrArg UInt8.toNat heq
  simp only [Nat.toUInt8_eq, UInt8.toNat_ofNat'] at hnat
  omega

theorem nodup_bytes : (Opcode.all.map Opcode.byte).Nodup := by decide

theorem mem_all (op : Opcode) : op ∈ Opcode.all := by
  cases op <;> decide

theorem snd_zip_sublist {α β : Type} (xs : List α) (ys : List β) :
    ((xs.zip ys).map Prod.snd).Sublist ys := by
  induction xs generalizing ys with
  | nil => exact List.nil_sublist _
  | cons x xs ih =>
    cases ys with
    | nil => exact List.nil_sublist _
    | cons y ys => exact (ih ys).cons_cons y

section Draw

variable {drawn : List UInt8 × Twister} (seed : Int) (h : drawn.1.Perm cover)
include h

theorem keys_forward : (ofDraw seed drawn).forward.keys = Opcode.all.map Opcode.byte := by
  have hle : (Opcode.all.map Opcode.byte).length ≤ cover.length := by decide +kernel
  exact List.map_fst_zip (h.length_eq ▸ hle)

theorem nodup_forward : ((ofDraw seed drawn).forward.map Prod.snd).Nodup :=
  (snd_zip_sublist _ _).nodup (h.nodup_iff.2 nodup_cover)

theorem conceal_of_mem {key hidden : UInt8} (hmem : (key, hidden) ∈ (ofDraw seed drawn).forward) :
    (ofDraw seed drawn).conceal key = hidden := by
  rw [conceal, Table.get?_eq_some_of_mem (keys_forward seed h ▸ nodup_bytes) hmem]
  rfl

theorem reveal_of_mem {key hidden : UInt8} (hmem : (key, hidden) ∈ (ofDraw seed drawn).forward) :
    (ofDraw seed drawn).reveal hidden = key := by
  have hnodup : (Table.keys ((ofDraw seed drawn).forward.map Prod.swap)).Nodup := by
    rw [Table.keys, List.map_map]
    exact nodup_forward seed h
  have hswap : (hidden, key) ∈ (ofDraw seed drawn).forward.map Prod.swap :=
    List.mem_map.2 ⟨_, hmem, rfl⟩
  rw [reveal, Table.get?_eq_some_of_mem hnodup hswap]
  rfl

theorem mem_forward (op : Opcode) :
    (op.byte, (ofDraw seed drawn).conceal op.byte) ∈ (ofDraw seed drawn).forward := by
  have hkey : op.byte ∈ (ofDraw seed drawn).forward.keys := by
    rw [keys_forward seed h]
    exact List.mem_map_of_mem (mem_all op)
  obtain ⟨⟨key, hidden⟩, hmem, rfl⟩ := List.mem_map.1 hkey
  exact conceal_of_mem seed h hmem ▸ hmem

theorem reveal_conceal_ofDraw (op : Opcode) :
    (ofDraw seed drawn).reveal ((ofDraw seed drawn).conceal op.byte) = op.byte :=
  reveal_of_mem seed h (mem_forward seed h op)

end Draw

/-- The byte that an operation is hidden behind stands for that operation. -/
theorem reveal_conceal (seed : Int) (op : Opcode) :
    (ofSeed seed).reveal ((ofSeed seed).conceal op.byte) = op.byte := by
  rw [ofSeed]
  exact reveal_conceal_ofDraw seed (Twister.shuffle_perm cover _) op

end Disguise.Mapping

end Birokrasi
