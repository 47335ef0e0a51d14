import Birokrasi.Random.Twister

/-!
# The words that a seed draws

The words of a generator are held as the digits of one number (`Packs`), so that seeding and
refilling are arithmetic on numbers, which is fast to evaluate. `feeds_ofSeed` says what words a
seed draws, as far as the first refill goes; draws of other kinds follow from them.
-/

namespace Birokrasi.Twister

/-! ## Digits -/

/-- The digit of a number at a place, to base `2 ^ 32`. -/
def digit (p i : Nat) : Nat := (p >>> (32 * i)) % 0x100000000

/-- A number with another digit at a place. -/
def write (p i w : Nat) : Nat := p ^^^ ((digit p i ^^^ w) <<< (32 * i))

variable {p i j w : Nat}

theorem testBit_digit (p i b : Nat) :
    (digit p i).testBit b = (decide (b < 32) && p.testBit (32 * i + b)) := by
  rw [digit, show 0x100000000 = 2 ^ 32 from rfl, Nat.testBit_mod_two_pow, Nat.testBit_shiftRight]

theorem digit_lt (p i : Nat) : digit p i < 0x100000000 := Nat.mod_lt _ (by decide)

theorem testBit_of_le {b : Nat} (hw : w < 0x100000000) (hb : 32 ≤ b) : w.testBit b = false := by
  refine Nat.testBit_lt_two_pow (Nat.lt_of_lt_of_le hw ?_)
  rw [show 0x100000000 = 2 ^ 32 from rfl]
  exact Nat.pow_le_pow_right (by decide) hb

theorem testBit_write (hw : w < 0x100000000) (p i j b : Nat) (hb : b < 32) :
    (write p i w).testBit (32 * j + b) = if i = j then w.testBit b else p.testBit (32 * j + b) := by
  rw [write, Nat.testBit_xor, Nat.testBit_shiftLeft]
  by_cases hij : i = j
  · subst hij
    have hle : 32 * i + b ≥ 32 * i := by omega
    rw [if_pos rfl, decide_eq_true hle, Bool.true_and, Nat.add_sub_cancel_left, Nat.testBit_xor,
      testBit_digit, decide_eq_true hb, Bool.true_and, ← Bool.xor_assoc, Bool.xor_self,
      Bool.false_xor]
  · rw [if_neg hij]
    by_cases hle : 32 * j + b ≥ 32 * i
    · have hfar : 32 ≤ 32 * j + b - 32 * i := by omega
      rw [Nat.testBit_xor, testBit_of_le hw hfar, testBit_of_le (digit_lt p i) hfar,
        Bool.xor_self, Bool.and_false, Bool.xor_false]
    · rw [decide_eq_false hle, Bool.false_and, Bool.xor_false]

theorem digit_write (hw : w < 0x100000000) (p i j : Nat) :
    digit (write p i w) j = if i = j then w else digit p j := by
  refine Nat.eq_of_testBit_eq fun b => ?_
  rw [testBit_digit]
  by_cases hb : b < 32
  · rw [decide_eq_true hb, Bool.true_and, testBit_write hw p i j b hb]
    split
    · rfl
    · rw [testBit_digit, decide_eq_true hb, Bool.true_and]
  · rw [decide_eq_false hb, Bool.false_and]
    split
    · rw [testBit_of_le hw (by omega)]
    · rw [testBit_digit, decide_eq_false hb, Bool.false_and]

/-! ## Packed words -/

/-- The words are the digits of a number. -/
def Packs (words : Array UInt32) (p : Nat) : Prop := ∀ i, digit p i = (words.getD i 0).toNat

variable {words : Array UInt32}

theorem Packs.set (h : Packs words p) (hi : i < words.size) (w : UInt32) :
    Packs (words.setIfInBounds i w) (write p i w.toNat) := by
  intro j
  rw [digit_write w.toNat_lt, h j, Array.getD_eq_getD_getElem?, Array.getD_eq_getD_getElem?,
    Array.getElem?_setIfInBounds]
  by_cases hij : i = j
  · subst hij
    rw [if_pos rfl, if_pos rfl, if_pos hi, Option.getD_some]
  · rw [if_neg hij, if_neg hij]

theorem Packs.push (h : Packs words p) (w : UInt32) :
    Packs (words.push w) (write p words.size w.toNat) := by
  intro j
  rw [digit_write w.toNat_lt, h j, Array.getD_eq_getD_getElem?, Array.getD_eq_getD_getElem?,
    Array.getElem?_push]
  by_cases hj : j = words.size
  · rw [if_pos hj.symm, if_pos hj, Option.getD_some]
  · rw [if_neg (Ne.symm hj), if_neg hj]

/-! ## Rounds -/

/-- Applies a function to a number that is evaluated before. -/
def strictly {α : Type} (n : Nat) (f : Nat → α) : α :=
  match n with
  | 0 => f 0
  | n + 1 => f (n + 1)

theorem strictly_eq {α : Type} (n : Nat) (f : Nat → α) : strictly n f = f n := by
  cases n <;> rfl

/-- Rounds on an index and a number. -/
def rounds (step : Nat → Nat → Nat × Nat) : (count : Nat) → (i p : Nat) → Nat × Nat
  | 0, i, p => (i, p)
  | count + 1, i, p =>
    strictly (step i p).1 fun i' => strictly (step i p).2 fun p' => rounds step count i' p'

/-- What each round keeps of a state, an index and a number, all rounds do. -/
theorem rounds_foldl {σ : Type} {f : σ → Nat → σ} {step : Nat → Nat → Nat × Nat}
    (R : Nat → σ → Nat → Nat → Prop) {count : Nat}
    (hstep : ∀ x < count, ∀ s i p, R x s i p → R (x + 1) (f s x) (step i p).1 (step i p).2)
    {s : σ} {i p : Nat} (h : R 0 s i p) :
    R count ((List.range count).foldl f s) (rounds step count i p).1 (rounds step count i p).2 := by
  rw [List.range_eq_range']
  -- The rounds from one of them on.
  suffices hfrom : ∀ left x, x + left = count → ∀ s i p, R x s i p →
      R count ((List.range' x left).foldl f s) (rounds step left i p).1 (rounds step left i p).2 from
    hfrom count 0 (Nat.zero_add count) s i p h
  intro left
  induction left with
  | zero =>
    intro x hx s i p h
    obtain rfl : x = count := hx
    exact h
  | succ left ih =>
    intro x hx s i p h
    rw [List.range'_succ, List.foldl_cons, rounds, strictly_eq, strictly_eq]
    exact ih (x + 1) (by omega) _ _ _ (hstep x (by omega) s i p h)

attribute [irreducible] rounds

/-! ## Seeding -/

/-- All words are there, and they are the digits of a number. -/
structure Packed (words : Array UInt32) (p : Nat) : Prop where
  size : words.size = 624
  packs : Packs words p

theorem Packed.set (h : Packed words p) (hi : i < 624) {w : UInt32} {w' : Nat} (hw : w.toNat = w') :
    Packed (words.setIfInBounds i w) (write p i w') := by
  subst hw
  refine ⟨?_, h.packs.set (by rw [h.size]; exact hi) w⟩
  rw [Array.size_setIfInBounds, h.size]

/-- The product that a word is mixed with. -/
def mixture (factor p i : Nat) : Nat :=
  (digit p i ^^^ (digit p i >>> 30)) * factor % 0x100000000

theorem toNat_mixture (h : Packs words p) (factor : UInt32) (i : Nat) :
    ((words.getD i 0 ^^^ (words.getD i 0 >>> 30)) * factor).toNat = mixture factor.toNat p i := by
  rw [UInt32.toNat_mul, UInt32.toNat_xor, UInt32.toNat_shiftRight, mixture, h i]
  rfl

def spreadDigit (i p : Nat) : Nat × Nat :=
  (i + 1, write p (i + 1) ((mixture 1812433253 p i + (i + 1)) % 0x100000000))

theorem packs_first : Packs #[19650218] 19650218 := by
  intro i
  cases i with
  | zero => rfl
  | succ i =>
    have hzero : (19650218 : Nat) >>> (32 * (i + 1)) = 0 := by
      rw [Nat.shiftRight_eq_div_pow]
      refine Nat.div_eq_of_lt (Nat.lt_of_lt_of_le (show 19650218 < 2 ^ 32 by decide) ?_)
      exact Nat.pow_le_pow_right (by decide) (by omega)
    rw [digit, hzero]
    rfl

/-- The words spread so far, and the index of the last one. -/
structure Spread (x : Nat) (words : Array UInt32) (i p : Nat) : Prop where
  index : i = x
  size : words.size = x + 1
  packs : Packs words p

theorem Spread.step {x : Nat} (h : Spread x words i p) :
    Spread (x + 1) (spreadStep words x) (spreadDigit i p).1 (spreadDigit i p).2 := by
  obtain ⟨rfl, hsize, hpacks⟩ := h
  have hword : ((1812433253 : UInt32) * (words.getD i 0 ^^^ (words.getD i 0 >>> 30)) +
      (i + 1).toUInt32).toNat = (mixture 1812433253 p i + (i + 1)) % 0x100000000 := by
    rw [UInt32.toNat_add, UInt32.mul_comm, toNat_mixture hpacks, Nat.toUInt32_eq,
      UInt32.toNat_ofNat', Nat.add_mod_mod]
    rfl
  refine ⟨rfl, by rw [spreadStep, Array.size_push, hsize], ?_⟩
  have hpush := hpacks.push ((1812433253 : UInt32) *
    (words.getD i 0 ^^^ (words.getD i 0 >>> 30)) + (i + 1).toUInt32)
  rw [hword, hsize] at hpush
  exact hpush

theorem packed_spread : Packed (spread 19650218) (rounds spreadDigit 623 0 19650218).2 := by
  have hfirst : Spread 0 #[19650218] 0 19650218 := ⟨rfl, rfl, packs_first⟩
  have hspread : Spread 623 (spread 19650218) _ (rounds spreadDigit 623 0 19650218).2 :=
    rounds_foldl Spread (fun _ _ _ _ _ h => h.step) hfirst
  exact ⟨hspread.size, hspread.packs⟩

/-- The index and the number after a step, where an index past the last word starts again behind the
first. -/
def wrapped (i p : Nat) : Nat × Nat := if 624 ≤ i then (1, write p 0 (digit p 623)) else (i, p)

/-- Packed words, and the index of one behind the first. -/
structure Mixed (words : Array UInt32) (i' : Nat) (i p : Nat) : Prop extends Packed words p where
  index : i' = i
  low : 1 ≤ i
  high : i < 624

theorem mixed_wrap (h : Packed words p) (hi : 1 ≤ i) :
    Mixed (wrap words i).1 (wrap words i).2 (wrapped i p).1 (wrapped i p).2 := by
  unfold wrap wrapped size
  by_cases hlast : 624 ≤ i
  · rw [if_pos hlast, if_pos hlast]
    exact ⟨h.set (by decide) (h.packs 623).symm, rfl, Nat.le_refl 1, show 1 < 624 by decide⟩
  · rw [if_neg hlast, if_neg hlast]
    exact ⟨h, rfl, hi, by omega⟩

def keyDigit (key i p : Nat) : Nat × Nat :=
  wrapped (i + 1) (write p i (((digit p i ^^^ mixture 1664525 p (i - 1)) + key) % 0x100000000))

/-- A state of the first round of seeding by a key of one word. -/
structure Keyed (state : Array UInt32 × Nat × Nat) (i p : Nat) : Prop where
  mixed : Mixed state.1 state.2.1 i p
  turn : state.2.2 = 0

theorem Keyed.pair {state : Array UInt32 × Nat × Nat} (h : Keyed state i p) :
    Mixed (state.1, state.2.1).1 (state.1, state.2.1).2 i p :=
  h.mixed

theorem Keyed.step {key : Nat} {state : Array UInt32 × Nat × Nat} (h : Keyed state i p) :
    Keyed (keyStep #[key.toUInt32] state) (keyDigit key i p).1 (keyDigit key i p).2 := by
  obtain ⟨words, i', j⟩ := state
  obtain ⟨⟨hpacked, rfl, hlow, hhigh⟩, hturn⟩ := h
  obtain rfl : j = 0 := hturn
  have hword : ((words.getD i' 0 ^^^ ((words.getD (i' - 1) 0 ^^^ (words.getD (i' - 1) 0 >>> 30)) *
      1664525)) + key.toUInt32 + (0 : Nat).toUInt32).toNat =
        ((digit p i' ^^^ mixture 1664525 p (i' - 1)) + key) % 0x100000000 := by
    rw [UInt32.toNat_add, UInt32.toNat_add, UInt32.toNat_xor, toNat_mixture hpacked.packs,
      hpacked.packs i', Nat.toUInt32_eq, UInt32.toNat_ofNat', Nat.add_mod_mod]
    exact Nat.mod_mod _ _
  exact ⟨mixed_wrap (hpacked.set hhigh hword) (by omega), rfl⟩

def indexDigit (i p : Nat) : Nat × Nat :=
  wrapped (i + 1)
    (write p i ((0x100000000 - i + (digit p i ^^^ mixture 1566083941 p (i - 1))) % 0x100000000))

theorem Mixed.step {state : Array UInt32 × Nat} (h : Mixed state.1 state.2 i p) :
    Mixed (indexStep state).1 (indexStep state).2 (indexDigit i p).1 (indexDigit i p).2 := by
  obtain ⟨words, i'⟩ := state
  obtain ⟨hpacked, rfl, hlow, hhigh⟩ := h
  have hsmall : i' < 2 ^ 32 := Nat.lt_trans hhigh (by decide)
  have hword : ((words.getD i' 0 ^^^ ((words.getD (i' - 1) 0 ^^^ (words.getD (i' - 1) 0 >>> 30)) *
      1566083941)) - i'.toUInt32).toNat =
        (0x100000000 - i' + (digit p i' ^^^ mixture 1566083941 p (i' - 1))) % 0x100000000 := by
    rw [UInt32.toNat_sub, UInt32.toNat_xor, toNat_mixture hpacked.packs,
      hpacked.packs i', Nat.toUInt32_eq, UInt32.toNat_ofNat', Nat.mod_eq_of_lt hsmall]
    rfl
  exact mixed_wrap (hpacked.set hhigh hword) (by omega)

theorem mixed_mixKey (key : Nat) (h : Packed words p) :
    Mixed (mixKey #[key.toUInt32] words).1 (mixKey #[key.toUInt32] words).2
      (rounds (keyDigit key) 624 1 p).1 (rounds (keyDigit key) 624 1 p).2 := by
  have hfirst : Keyed (words, 1, 0) 1 p := ⟨⟨h, rfl, Nat.le_refl 1, by decide⟩, rfl⟩
  have hcount : max size #[key.toUInt32].size = 624 := rfl
  have hkeyed : Keyed ((List.range 624).foldl (fun state _ => keyStep #[key.toUInt32] state) (words, 1, 0))
      (rounds (keyDigit key) 624 1 p).1 (rounds (keyDigit key) 624 1 p).2 :=
    rounds_foldl (fun _ => Keyed) (fun _ _ _ _ _ h => h.step) hfirst
  rw [mixKey, hcount]
  exact hkeyed.pair

theorem packed_mixIndex {i' : Nat} (h : Mixed words i' i p) :
    Packed (mixIndex words i') (rounds indexDigit 623 i p).2 :=
  (rounds_foldl (fun _ (state : Array UInt32 × Nat) => Mixed state.1 state.2)
    (fun _ _ _ _ _ h => h.step) (show Mixed (words, i').1 (words, i').2 i p from h)).toPacked

/-- The words of the generator of a key of one word, packed. -/
def packedSeed (key : Nat) : Nat :=
  strictly (rounds spreadDigit 623 0 19650218).2 fun p =>
    strictly (rounds (keyDigit key) 624 1 p).1 fun i =>
      strictly (rounds (keyDigit key) 624 1 p).2 fun p => write (rounds indexDigit 623 i p).2 0 0x80000000

theorem Packed.seeded (h : Packed words p) :
    Packed (⟨words.setIfInBounds 0 0x80000000, Twister.size⟩ : Twister).words (write p 0 0x80000000) :=
  h.set (by decide) rfl

theorem packed_ofSeed {seed : Int} (h : seed.natAbs < 0x100000000) :
    Packed (ofSeed seed).words (packedSeed seed.natAbs) := by
  have hkey : (keyOf seed.natAbs).toArray = #[seed.natAbs.toUInt32] := by rw [keyOf, if_pos h]
  have hmixed := mixed_mixKey seed.natAbs packed_spread
  rw [packedSeed, strictly_eq, strictly_eq, strictly_eq, ofSeed, hkey]
  exact (packed_mixIndex hmixed).seeded

/-! ## Refilling -/

def refillDigit (i p : Nat) : Nat × Nat :=
  let joined := (digit p i &&& 0x80000000) ||| (digit p ((i + 1) % 624) &&& 0x7FFFFFFF)
  (i + 1, write p i (digit p ((i + 397) % 624) ^^^ (joined >>> 1) ^^^
    (if joined &&& 1 = 1 then 0x9908B0DF else 0)))

/-- A state in which the words before an index are new. -/
structure Refilling (x : Nat) (words : Array UInt32) (i p : Nat) : Prop extends Packed words p where
  index : i = x

theorem toNat_twist (far joined : UInt32) :
    (far ^^^ (joined >>> 1) ^^^ (if joined &&& 1 = 1 then 0x9908B0DF else 0)).toNat =
      far.toNat ^^^ (joined.toNat >>> 1) ^^^ (if joined.toNat &&& 1 = 1 then 0x9908B0DF else 0) := by
  have hodd : joined &&& 1 = 1 ↔ joined.toNat &&& 1 = 1 := by
    rw [← UInt32.toNat_inj, UInt32.toNat_and]
    rfl
  rw [UInt32.toNat_xor, UInt32.toNat_xor, UInt32.toNat_shiftRight]
  by_cases h : joined &&& 1 = 1
  · rw [if_pos h, if_pos (hodd.1 h)]
    rfl
  · rw [if_neg h, if_neg fun h' => h (hodd.2 h')]
    rfl

theorem Refilling.step {x : Nat} (hx : x < 624) (h : Refilling x words i p) :
    Refilling (x + 1) (refillStep words x) (refillDigit i p).1 (refillDigit i p).2 := by
  obtain ⟨hpacked, rfl⟩ := h
  have hjoined : ((words.getD i 0 &&& 0x80000000) ||| (words.getD ((i + 1) % 624) 0 &&& 0x7FFFFFFF)).toNat =
      (digit p i &&& 0x80000000) ||| (digit p ((i + 1) % 624) &&& 0x7FFFFFFF) := by
    rw [UInt32.toNat_or, UInt32.toNat_and, UInt32.toNat_and, hpacked.packs, hpacked.packs]
    rfl
  have hword := toNat_twist (words.getD ((i + 397) % 624) 0)
    ((words.getD i 0 &&& 0x80000000) ||| (words.getD ((i + 1) % 624) 0 &&& 0x7FFFFFFF))
  rw [hjoined, ← hpacked.packs] at hword
  exact ⟨hpacked.set hx hword, rfl⟩

theorem packed_refill (h : Packed words p) : Packed (refill words) (rounds refillDigit 624 0 p).2 :=
  (rounds_foldl Refilling (fun _ hx _ _ _ h => h.step hx)
    (show Refilling 0 words 0 p from ⟨h, rfl⟩)).toPacked

/-! ## Draws -/

/-- The generator draws these words, one after the other. -/
def Feeds : List UInt32 → Twister → Prop
  | [], _ => True
  | w :: ws, g => g.word.1 = w ∧ Feeds ws g.word.2

/-- The word that is drawn for a digit. -/
def drawn (p i : Nat) : UInt32 := temper (digit p i).toUInt32

theorem feeds_of_packed (h : Packed words p) (n : Nat) {used : Nat} (hn : used + n ≤ 624) :
    Feeds ((List.range' used n).map (drawn p)) ⟨words, used⟩ := by
  induction n generalizing used with
  | zero => trivial
  | succ n ih =>
    have hleft : ¬ size ≤ used := by
      rw [size]
      omega
    have hword : (⟨words, used⟩ : Twister).word = (temper (words.getD used 0), ⟨words, used + 1⟩) := by
      rw [word, if_neg hleft]
    have hdigit : temper (words.getD used 0) = drawn p used := by
      rw [drawn, h.packs, Nat.toUInt32_eq, UInt32.ofNat_toNat]
    rw [List.range'_succ, List.map_cons, Feeds, hword]
    exact ⟨hdigit, ih (by omega)⟩

/-- The first words that the generator of a key of one word draws. -/
def firstWords (key n : Nat) : List UInt32 :=
  strictly (packedSeed key) fun p =>
    strictly (rounds refillDigit 624 0 p).2 fun p => (List.range n).map (drawn p)

theorem length_firstWords (key n : Nat) : (firstWords key n).length = n := by
  rw [firstWords, strictly_eq, strictly_eq, List.length_map, List.length_range]

theorem word_of_used {g : Twister} (h : g.used = size) :
    g.word = (⟨refill g.words, 0⟩ : Twister).word := by
  rw [word, h, if_pos (Nat.le_refl size), word, if_neg (show ¬ size ≤ 0 by decide)]

/-- What words a seed draws, up to the number of words that there are. -/
theorem feeds_ofSeed {seed : Int} (h : seed.natAbs < 0x100000000) {n : Nat} (hn : n ≤ 624) :
    Feeds (firstWords seed.natAbs n) (ofSeed seed) := by
  have hpacked := packed_refill (packed_ofSeed h)
  have hused : (ofSeed seed).used = size := rfl
  rw [firstWords, strictly_eq, strictly_eq, List.range_eq_range']
  cases n with
  | zero => trivial
  | succ n =>
    have hfeeds := feeds_of_packed hpacked (n + 1) (show 0 + (n + 1) ≤ 624 by omega)
    rw [List.range'_succ, List.map_cons, Feeds] at hfeeds ⊢
    rw [word_of_used hused]
    exact hfeeds

variable {a b : UInt32} {ws : List UInt32} {g : Twister}

/-- The double that two words make. -/
def fraction (a b : UInt32) : Float :=
  Float.ofNat ((a >>> 5).toNat * 67108864 + (b >>> 6).toNat) * (1.0 / 9007199254740992.0)

theorem unit_eq (g : Twister) : g.unit = (fraction g.word.1 g.word.2.word.1, g.word.2.word.2) := rfl

/-- The doubles that words make, two for each. -/
def fractions : List UInt32 → List Float
  | [] => []
  | [_] => []
  | a :: b :: ws => fraction a b :: fractions ws

theorem length_fractions (ws : List UInt32) : (fractions ws).length = ws.length / 2 := by
  fun_induction fractions ws with
  | case1 => rfl
  | case2 w => simp
  | case3 a b ws ih =>
    rw [List.length_cons, ih, List.length_cons, List.length_cons]
    omega

/-- The generator draws these doubles, one after the other. -/
def Yields : List Float → Twister → Prop
  | [], _ => True
  | u :: us, g => g.unit.1 = u ∧ Yields us g.unit.2

theorem Feeds.yields (h : Feeds ws g) : Yields (fractions ws) g := by
  fun_induction fractions ws generalizing g with
  | case1 => trivial
  | case2 w => trivial
  | case3 a b ws ih =>
    rw [Yields, unit_eq]
    obtain ⟨rfl, rfl, hrest⟩ := h
    exact ⟨rfl, ih hrest⟩

theorem belowWithin_succ (n count tries : Nat) (g : Twister) :
    belowWithin n count (tries + 1) g =
      if g.word.1.toNat >>> (32 - count) < n then (g.word.1.toNat >>> (32 - count), g.word.2)
      else belowWithin n count tries g.word.2 := rfl

/-- A draw that is not rejected. -/
theorem Feeds.between {low high : Int} {r : Nat} (h : Feeds (a :: ws) g)
    (hr : a.toNat >>> (32 - bitLength (high - low + 1).toNat) = r) (hlt : r < (high - low + 1).toNat) :
    (g.between low high).1 = low + r ∧ Feeds ws (g.between low high).2 := by
  obtain ⟨rfl, hrest⟩ := h
  subst hr
  have hbelow : g.below (high - low + 1).toNat =
      (g.word.1.toNat >>> (32 - bitLength (high - low + 1).toNat), g.word.2) := by
    rw [below, patience, show 10000 = 9999 + 1 from rfl, belowWithin_succ, if_pos hlt]
  rw [Twister.between, hbelow]
  exact ⟨rfl, hrest⟩

end Birokrasi.Twister
