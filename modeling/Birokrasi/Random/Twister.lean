import Birokrasi.Value.Fault

/-!
# The Mersenne twister

The generator MT19937: 624 words of state, seeded from an integer of any size, with the draws that
programs make. A draw returns the generator after it, so that a run is a function of the seed.
`below_lt` says that a draw below `n` is below `n`.
-/

namespace Birokrasi

/-- A generator: its words and how many of them are used up. -/
structure Twister where
  words : Array UInt32
  used : Nat

namespace Twister

def size : Nat := 624

def offset : Nat := 397

/-! ## Seeding -/

def spreadStep (words : Array UInt32) (i : Nat) : Array UInt32 :=
  let last := words.getD i 0
  words.push ((1812433253 : UInt32) * (last ^^^ (last >>> 30)) + (i + 1).toUInt32)

def spread (first : UInt32) : Array UInt32 := (List.range (size - 1)).foldl spreadStep #[first]

/-- An index that has run past the last word starts again behind the first, which takes the last
word's value. -/
def wrap (words : Array UInt32) (i : Nat) : Array UInt32 × Nat :=
  if size ≤ i then (words.setIfInBounds 0 (words.getD (size - 1) 0), 1) else (words, i)

def keyStep (key : Array UInt32) (state : Array UInt32 × Nat × Nat) : Array UInt32 × Nat × Nat :=
  let (words, i, j) := state
  let last := words.getD (i - 1) 0
  let word := (words.getD i 0 ^^^ ((last ^^^ (last >>> 30)) * 1664525)) + key.getD j 0 + j.toUInt32
  let (words, i) := wrap (words.setIfInBounds i word) (i + 1)
  (words, i, if key.size ≤ j + 1 then 0 else j + 1)

def mixKey (key : Array UInt32) (words : Array UInt32) : Array UInt32 × Nat :=
  let mixed := (List.range (max size key.size)).foldl (fun state _ => keyStep key state) (words, 1, 0)
  (mixed.1, mixed.2.1)

def indexStep (state : Array UInt32 × Nat) : Array UInt32 × Nat :=
  let (words, i) := state
  let last := words.getD (i - 1) 0
  let word := (words.getD i 0 ^^^ ((last ^^^ (last >>> 30)) * 1566083941)) - i.toUInt32
  wrap (words.setIfInBounds i word) (i + 1)

def mixIndex (words : Array UInt32) (i : Nat) : Array UInt32 :=
  ((List.range (size - 1)).foldl (fun state _ => indexStep state) (words, i)).1

/-- The digits of a number to base `2 ^ 32`, lowest first; at least one. -/
def keyOf (n : Nat) : List UInt32 :=
  if n < 0x100000000 then [n.toUInt32] else n.toUInt32 :: keyOf (n / 0x100000000)
termination_by n
decreasing_by omega

/-- The generator of a seed; a negative seed gives the same one as its absolute value. -/
def ofSeed (seed : Int) : Twister :=
  let mixed := mixKey (keyOf seed.natAbs).toArray (spread 19650218)
  ⟨(mixIndex mixed.1 mixed.2).setIfInBounds 0 0x80000000, size⟩

/-! ## Words -/

def refillStep (words : Array UInt32) (i : Nat) : Array UInt32 :=
  let next := words.getD ((i + 1) % size) 0
  let joined := (words.getD i 0 &&& 0x80000000) ||| (next &&& 0x7FFFFFFF)
  let far := words.getD ((i + offset) % size) 0
  let word := far ^^^ (joined >>> 1) ^^^ (if joined &&& 1 = 1 then 0x9908B0DF else 0)
  words.setIfInBounds i word

def refill (words : Array UInt32) : Array UInt32 := (List.range size).foldl refillStep words

def temper (y : UInt32) : UInt32 :=
  let y := y ^^^ (y >>> 11)
  let y := y ^^^ ((y <<< 7) &&& 0x9D2C5680)
  let y := y ^^^ ((y <<< 15) &&& 0xEFC60000)
  y ^^^ (y >>> 18)

def word (g : Twister) : UInt32 × Twister :=
  let g := if size ≤ g.used then ⟨refill g.words, 0⟩ else g
  (temper (g.words.getD g.used 0), { g with used := g.used + 1 })

/-! ## Draws -/

/-- A double from zero to below one, in steps of `2 ^ -53`. -/
def unit (g : Twister) : Float × Twister :=
  let (a, g) := g.word
  let (b, g) := g.word
  let n := (a >>> 5).toNat * 67108864 + (b >>> 6).toNat
  (Float.ofNat n * (1.0 / 9007199254740992.0), g)

/-- The highest `count` bits of a word, for a count of at most 32. -/
def bits (g : Twister) (count : Nat) : Nat × Twister :=
  let (w, g) := g.word
  (w.toNat >>> (32 - count), g)

/-- How many draws are rejected at most. -/
def patience : Nat := 10000

/-- Draws until one is below `n`. After `tries` rejections the last draw is reduced, so that the
result is below `n` in any case. -/
def belowWithin (n count : Nat) : (tries : Nat) → Twister → Nat × Twister
  | 0, g =>
    let (r, g) := g.bits count
    (r % n, g)
  | tries + 1, g =>
    let (r, g) := g.bits count
    if r < n then (r, g) else belowWithin n count tries g

def bitLength (n : Nat) : Nat := if n = 0 then 0 else n.log2 + 1

def below (n : Nat) (g : Twister) : Nat × Twister := belowWithin n (bitLength n) patience g

def between (low high : Int) (g : Twister) : Int × Twister :=
  let (r, g) := g.below (high - low + 1).toNat
  (low + r, g)

def uniform (a b : Float) (g : Twister) : Float × Twister :=
  let (u, g) := g.unit
  (a + (b - a) * u, g)

def choice {α : Type} (default : α) (items : List α) (g : Twister) : α × Twister :=
  let (i, g) := g.below items.length
  (items.getD i default, g)

/-- The items in a new order: from the last place down, each is exchanged with one at or before
it. -/
def shuffleFrom {α : Type} : (last : Nat) → Array α → Twister → Array α × Twister
  | 0, items, g => (items, g)
  | i + 1, items, g =>
    let (j, g) := g.below (i + 2)
    shuffleFrom i (items.swapIfInBounds (i + 1) j) g

def shuffle {α : Type} (items : List α) (g : Twister) : List α × Twister :=
  let (a, g) := shuffleFrom (items.length - 1) items.toArray g
  (a.toList, g)

/-! ## Samples -/

/-- Items taken from a pool: each one drawn makes room for the last of those not yet drawn. -/
def samplePool {α : Type} : (count : Nat) → Array α → Nat → Twister → List α → List α × Twister
  | 0, _, _, g, taken => (taken.reverse, g)
  | count + 1, pool, left, g, taken =>
    let (j, g) := g.below left
    match pool[j]?, pool[left - 1]? with
    | some item, some last => samplePool count (pool.setIfInBounds j last) (left - 1) g (item :: taken)
    | _, _ => (taken.reverse, g)

/-- A place below `n` that is not among the chosen ones: draws until there is one, and after
`tries` vain draws the first free place. -/
def fresh (n : Nat) (chosen : List Nat) : (tries : Nat) → Twister → Nat × Twister
  | 0, g => (((List.range n).find? fun j => !chosen.contains j).getD 0, g)
  | tries + 1, g =>
    let (j, g) := g.below n
    if chosen.contains j then fresh n chosen tries g else (j, g)

def samplePlaces (n : Nat) : (count : Nat) → List Nat → Twister → List Nat × Twister
  | 0, chosen, g => (chosen, g)
  | count + 1, chosen, g =>
    let (j, g) := fresh n chosen patience g
    samplePlaces n count (j :: chosen) g

/-- The least power of four that is at least three times `count`. -/
def poolPower (count : Nat) : Nat :=
  ((List.range 32).map (Nat.pow 4)).find? (3 * count ≤ ·) |>.getD 0

def poolLimit (count : Nat) : Nat := 21 + (if 5 < count then poolPower count else 0)

/-- `count` of the items in the order drawn; it is a fault to ask for more than there are. -/
def sample {α : Type} (items : List α) (count : Int) (g : Twister) :
    Except Fault (List α × Twister) :=
  if count < 0 || (items.length : Int) < count then .error .sampleSize
  else
    let n := items.length
    let k := count.toNat
    if n ≤ poolLimit k then .ok (samplePool k items.toArray n g [])
    else
      let (places, g) := samplePlaces n k [] g
      .ok (places.reverse.filterMap (items[·]?), g)

/-! ## Laws -/

theorem belowWithin_lt {n : Nat} (hn : 0 < n) (count tries : Nat) (g : Twister) :
    (belowWithin n count tries g).1 < n := by
  induction tries generalizing g with
  | zero => exact Nat.mod_lt _ hn
  | succ tries ih =>
    simp only [belowWithin]
    split
    · assumption
    · exact ih _

theorem below_lt {n : Nat} (hn : 0 < n) (g : Twister) : (below n g).1 < n :=
  belowWithin_lt hn _ _ g

end Twister

end Birokrasi
