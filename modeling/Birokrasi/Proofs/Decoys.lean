import Mathlib.Data.List.Nodup
import Mathlib.Data.List.Perm.Subperm
import Birokrasi.Proofs.InvertibleMappings

/-!
# Decoys are no hidden operations

A sample is drawn in one of two ways: from a pool in which the last item takes the place of each one
drawn, or as places that are drawn until there is a new one. Either way it is a part of the items in some
order (`sample_subperm`), so no item is drawn twice. Decoys are a sample of the covering bytes that no
operation is hidden behind, of which there are always as many (`length_unused`). Drawing them leaves all of
a mapping as it is but its generator, and so it does not matter what has been drawn before. The main
statement is `decoys_unused`.
-/

namespace Birokrasi

namespace Twister

variable {α : Type}

/-! ## Drawing from a pool -/

/-- The item drawn and those left are the ones that were there before: the last one is where the item
was. -/
theorem cons_take_set_perm {l : List α} {j left : Nat} {item last : α} (hj : j ≤ left)
    (hitem : l[j]? = some item) (hlast : l[left]? = some last) :
    (item :: (l.set j last).take left).Perm (l.take (left + 1)) := by
  obtain ⟨hlt, hget⟩ := List.getElem?_eq_some_iff.1 hlast
  have hlength : (l.take left).length = left := by
    rw [List.length_take]
    omega
  rw [← List.take_append_getElem hlt, hget, List.take_set]
  refine List.Perm.trans ?_ (List.perm_append_singleton last (l.take left)).symm
  rcases Nat.lt_or_eq_of_le hj with hbefore | rfl
  · have hplace : j < (l.take left).length := by omega
    have hdrawn : (l.take left)[j] = item := by
      rw [List.getElem_take]
      exact (List.getElem?_eq_some_iff.1 hitem).2
    have hset := List.set_perm_cons_eraseIdx hplace last
    have herase := List.getElem_cons_eraseIdx_perm hplace
    rw [hdrawn] at herase
    exact ((hset.cons item).trans (.swap last item _)).trans (herase.cons last)
  · rw [List.set_eq_of_length_le (Nat.le_of_eq hlength), Option.some_inj.1 (hitem.symm.trans hlast)]

/-- What is taken from the first `left` items of a pool, besides what has been taken before. -/
theorem samplePool_subperm {count left : Nat} {pool : Array α} (hcount : count ≤ left)
    (hleft : left ≤ pool.size) (g : Twister) (taken : List α) :
    ∃ drawn, (samplePool count pool left g taken).1 = taken.reverse ++ drawn ∧
      drawn.length = count ∧ drawn.Subperm (pool.toList.take left) := by
  induction count generalizing left pool g taken with
  | zero => exact ⟨[], by simp [samplePool], rfl, List.nil_subperm⟩
  | succ count ih =>
    obtain ⟨left, rfl⟩ : ∃ n, left = n + 1 := ⟨left - 1, by omega⟩
    have hj : (g.below (left + 1)).1 < left + 1 := below_lt (Nat.succ_pos left) g
    obtain ⟨item, hitem⟩ : ∃ item, pool[(g.below (left + 1)).1]? = some item :=
      ⟨_, Array.getElem?_eq_getElem (by omega)⟩
    obtain ⟨last, hlast⟩ : ∃ last, pool[left]? = some last :=
      ⟨_, Array.getElem?_eq_getElem (by omega)⟩
    have hsize : left ≤ (pool.setIfInBounds (g.below (left + 1)).1 last).size := by
      rw [Array.size_setIfInBounds]
      omega
    obtain ⟨drawn, hresult, hlength, hsub⟩ := ih (Nat.le_of_succ_le_succ hcount) hsize
      (g.below (left + 1)).2 (item :: taken)
    refine ⟨item :: drawn, ?_, by rw [List.length_cons, hlength], ?_⟩
    · rw [samplePool]
      simp only [Nat.add_sub_cancel, hitem, hlast, hresult, List.reverse_cons, List.append_assoc,
        List.singleton_append]
    · rw [Array.toList_setIfInBounds] at hsub
      rw [← Array.getElem?_toList] at hitem hlast
      exact ((List.subperm_cons item).2 hsub).trans
        (cons_take_set_perm (Nat.le_of_lt_succ hj) hitem hlast).subperm

/-! ## Drawing places -/

/-- Fewer numbers than `n` leave one out of those below `n`. -/
theorem exists_not_mem {n : Nat} {chosen : List Nat} (h : chosen.length < n) : ∃ j < n, j ∉ chosen := by
  by_contra hall
  have hsub : List.range n ⊆ chosen := fun j hj => by
    by_contra hj'
    exact hall ⟨j, List.mem_range.1 hj, hj'⟩
  have hle := (List.nodup_range.subperm hsub).length_le
  rw [List.length_range] at hle
  omega

/-- A fresh place is one below `n` that has not been chosen. -/
theorem fresh_spec {n : Nat} {chosen : List Nat} (h : chosen.length < n) (tries : Nat) (g : Twister) :
    (fresh n chosen tries g).1 < n ∧ (fresh n chosen tries g).1 ∉ chosen := by
  induction tries generalizing g with
  | zero =>
    -- After too many vain draws the first free place is taken, and there is one.
    obtain ⟨j, hj, hfree⟩ := exists_not_mem h
    cases hfind : (List.range n).find? fun j => !chosen.contains j with
    | none =>
      have hnone := List.find?_eq_none.1 hfind j (List.mem_range.2 hj)
      simp [hfree] at hnone
    | some place =>
      have hplace : place ∉ chosen := by simpa using List.find?_some hfind
      rw [fresh, hfind]
      exact ⟨List.mem_range.1 (List.mem_of_find?_eq_some hfind), hplace⟩
  | succ tries ih =>
    rw [fresh]
    dsimp only
    split
    · exact ih _
    next hnew => exact ⟨below_lt (by omega) g, by simpa using hnew⟩

/-- So many different places below `n`. -/
structure Places (n count : Nat) (places : List Nat) : Prop where
  nodup : places.Nodup
  lt : ∀ j ∈ places, j < n
  length : places.length = count

theorem Places.reverse {n count : Nat} {places : List Nat} (h : Places n count places) :
    Places n count places.reverse where
  nodup := List.nodup_reverse.2 h.nodup
  lt := fun j hj => h.lt j (List.mem_reverse.1 hj)
  length := List.length_reverse.trans h.length

theorem places_samplePlaces {n k count : Nat} {chosen : List Nat} (hchosen : Places n k chosen)
    (h : k + count ≤ n) (g : Twister) : Places n (k + count) (samplePlaces n count chosen g).1 := by
  induction count generalizing k chosen g with
  | zero => exact hchosen
  | succ count ih =>
    have hfew : chosen.length < n := by
      rw [hchosen.length]
      omega
    obtain ⟨hlt, hnew⟩ := fresh_spec hfew patience g
    have hnext : Places n (k + 1) ((fresh n chosen patience g).1 :: chosen) :=
      { nodup := List.nodup_cons.2 ⟨hnew, hchosen.nodup⟩
        lt := fun j hj => by
          rcases List.mem_cons.1 hj with rfl | hj
          · exact hlt
          · exact hchosen.lt j hj
        length := congrArg Nat.succ hchosen.length }
    rw [samplePlaces, show k + (count + 1) = k + 1 + count by omega]
    exact ih hnext (by omega) _

theorem filterMap_range (items : List α) : (List.range items.length).filterMap (items[·]?) = items := by
  have hmap : (List.range items.length).map (items[·]?) = items.map some := by
    apply List.ext_getElem
    · simp
    · intro i _ _
      simp
  calc (List.range items.length).filterMap (items[·]?)
    _ = ((List.range items.length).map (items[·]?)).filterMap id := by
      rw [List.filterMap_map, Function.id_comp]
    _ = items.filterMap some := by rw [hmap, List.filterMap_map, Function.id_comp]
    _ = items := List.filterMap_some

/-- The items at different places are a part of the items. -/
theorem Places.subperm {items : List α} {count : Nat} {places : List Nat}
    (h : Places items.length count places) :
    (places.filterMap (items[·]?)).length = count ∧ (places.filterMap (items[·]?)).Subperm items := by
  constructor
  · rw [List.filterMap_length_eq_length.2, h.length]
    intro j hj
    rw [List.getElem?_eq_getElem (h.lt j hj)]
    rfl
  · obtain ⟨l, hperm, hsub⟩ := h.nodup.subperm fun j hj => List.mem_range.2 (h.lt j hj)
    have hitems := hsub.filterMap (items[·]?)
    rw [filterMap_range] at hitems
    exact ⟨l.filterMap (items[·]?), hperm.filterMap _, hitems⟩

/-- As many of the items as are asked for, each of them once, if there are so many. -/
theorem sample_subperm {items : List α} {k : Nat} (h : k ≤ items.length) (g : Twister) :
    ∃ drawn g', g.sample items k = .ok (drawn, g') ∧ drawn.length = k ∧ drawn.Subperm items := by
  have hsize : ¬ ((k : Int) < 0 || (items.length : Int) < k) = true := by
    simp only [Bool.or_eq_true, decide_eq_true_eq]
    omega
  rw [sample, if_neg hsize]
  dsimp only
  rw [Int.toNat_natCast]
  split
  · obtain ⟨drawn, hdrawn, hlength, hsub⟩ := samplePool_subperm h (Nat.le_refl items.toArray.size) g []
    rw [List.take_length] at hsub
    exact ⟨drawn, _, congrArg Except.ok (Prod.ext hdrawn rfl), hlength, hsub⟩
  · have hnone : Places items.length 0 [] := ⟨.nil, by simp, rfl⟩
    have hplaces : Places items.length (0 + k) (samplePlaces items.length k [] g).1 :=
      places_samplePlaces hnone (by omega) g
    rw [Nat.zero_add] at hplaces
    exact ⟨_, _, rfl, hplaces.reverse.subperm⟩

end Twister

namespace Disguise.Mapping

open Birokrasi.Bytecode

variable {m : Mapping}

/-! ## Unused bytes -/

theorem mem_unused {b : UInt8} : b ∈ m.unused ↔ b ∈ cover ∧ b ∉ m.image := by
  rw [unused, List.mem_filter, Bool.not_eq_true', ← Bool.not_eq_true, List.contains_iff_mem]
  rfl

/-- The covering bytes are the unused ones and those that operations are hidden behind. -/
theorem length_unused (hsub : m.image ⊆ cover) (hnodup : m.image.Nodup) :
    m.unused.length + m.image.length = cover.length := by
  have hused : (cover.filter fun b => m.image.contains b).Perm m.image := by
    rw [List.perm_ext_iff_of_nodup (nodup_cover.filter _) hnodup]
    intro b
    rw [List.mem_filter, List.contains_iff_mem]
    exact ⟨And.right, fun hb => ⟨hsub hb, hb⟩⟩
  have hsplit := List.length_eq_length_filter_add (l := cover) fun b => m.image.contains b
  rw [hused.length_eq, Nat.add_comm] at hsplit
  exact hsplit.symm

theorem length_unused_ofDraw (seed : Int) {drawn : List UInt8 × Twister} (h : drawn.1.Perm cover) :
    (ofDraw seed drawn).unused.length = 201 := by
  have hsub : (ofDraw seed drawn).image ⊆ cover := fun b hb =>
    h.subset ((snd_zip_sublist _ _).subset hb)
  have hinvertible := invertible_ofDraw seed h
  have hlength := length_unused hsub hinvertible.nodup_image
  rw [hinvertible.length_image, cover, List.length_map, List.length_range] at hlength
  omega

theorem length_unused_ofSeed (seed : Int) : (ofSeed seed).unused.length = 201 := by
  rw [ofSeed]
  exact length_unused_ofDraw seed (Twister.shuffle_perm cover _)

/-! ## Decoys -/

/-- A sample of the unused bytes, with the generator after it in the place of that before. -/
theorem decoys_eq (m : Mapping) (count : Int) :
    m.decoys count =
      (m.rng.sample m.unused (min count m.unused.length)).map fun r => (r.1, { m with rng := r.2 }) := by
  rw [decoys]
  cases m.rng.sample m.unused (min count m.unused.length) <;> rfl

/-- A mapping after decoys have been drawn, so many each time. A count below zero is a fault, which leaves
the mapping as it is. -/
def afterDecoys (m : Mapping) : List Int → Mapping
  | [] => m
  | count :: later =>
    match m.decoys count with
    | .ok (_, m) => m.afterDecoys later
    | .error _ => m.afterDecoys later

/-- Drawing decoys changes nothing of a mapping but its generator. -/
theorem afterDecoys_eq (m : Mapping) (counts : List Int) :
    ∃ rng, m.afterDecoys counts = { m with rng } := by
  induction counts generalizing m with
  | nil => exact ⟨m.rng, rfl⟩
  | cons count later ih =>
    rw [afterDecoys, decoys_eq]
    cases m.rng.sample m.unused (min count m.unused.length) with
    | error f => exact ih m
    | ok r => exact ih { m with rng := r.2 }

/-- As many decoys as are asked for, or all there are. -/
theorem decoys_subperm (m : Mapping) (count : Nat) :
    ∃ drawn rng, m.decoys count = .ok (drawn, { m with rng }) ∧
      drawn.length = min count m.unused.length ∧ drawn.Subperm m.unused := by
  obtain ⟨drawn, rng, hsample, hlength, hsub⟩ :=
    Twister.sample_subperm (Nat.min_le_right count m.unused.length) m.rng
  have hmin : ((min count m.unused.length : Nat) : Int) = min (count : Int) m.unused.length := by omega
  refine ⟨drawn, rng, ?_, hlength, hsub⟩
  rw [decoys_eq, ← hmin, hsample]
  rfl

/-- So it does not matter what has been drawn before. -/
theorem decoys_afterDecoys_subperm (m : Mapping) (earlier : List Int) (count : Nat) :
    ∃ drawn rng, (m.afterDecoys earlier).decoys count = .ok (drawn, { m with rng }) ∧
      drawn.length = min count m.unused.length ∧ drawn.Subperm m.unused := by
  obtain ⟨rng, hearlier⟩ := afterDecoys_eq m earlier
  rw [hearlier]
  exact decoys_subperm { m with rng } count

/-- Whatever decoys have been drawn before from the mapping of any seed, a call for decoys returns. What it
returns are different covering bytes that no operation is hidden behind, as many as are asked for or
all of the two hundred and one, and the mapping is still that of the seed but for its generator. -/
theorem decoys_unused (seed : Int) (earlier : List Int) (count : Nat) :
    ∃ drawn rng,
      ((ofSeed seed).afterDecoys earlier).decoys count = .ok (drawn, { ofSeed seed with rng }) ∧
      drawn.length = min count 201 ∧ drawn.Nodup ∧
      ∀ b ∈ drawn, 0x10 ≤ b ∧ b ≤ 0xEF ∧ b ∉ (ofSeed seed).image := by
  obtain ⟨drawn, rng, hdecoys, hlength, hsub⟩ :=
    decoys_afterDecoys_subperm (ofSeed seed) earlier count
  rw [length_unused_ofSeed] at hlength
  have hnodup : drawn.Nodup := by
    obtain ⟨l, hperm, hl⟩ := hsub
    exact hperm.nodup_iff.1 (hl.nodup (nodup_cover.filter _))
  refine ⟨drawn, rng, hdecoys, hlength, hnodup, fun b hb => ?_⟩
  obtain ⟨hcover, hfree⟩ := mem_unused.1 (hsub.subset hb)
  obtain ⟨hlow, hhigh⟩ := mem_cover hcover
  exact ⟨hlow, hhigh, hfree⟩

end Disguise.Mapping

end Birokrasi
