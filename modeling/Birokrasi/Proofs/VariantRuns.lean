import Birokrasi.Proofs.DisguisedRuns
import Birokrasi.Proofs.ExchangedCode
import Birokrasi.Proofs.SleddedCode

/-!
# Variants that run as the code does

A variant is made by changes, one after the other: idle bytes are put in, then the operands of each
sum and product are exchanged (`variant_eq`). The changes are made blindly, so a variant may well do
something else than the code. It does the same if no change matters to the run of the code that it
is made in (`SparedBy`): then every variant of a lineage gives the same answer and prints the same
(`variants_run_alike`).
-/

namespace Birokrasi.Disguise

open Birokrasi.Bytecode
open Birokrasi.Machine
open Birokrasi.Text (Bytes)

/-! ## Runs that end by themselves -/

theorem exists_settles_of_stopsWithin {rounds : Nat} {m : Machine} (h : stopsWithin rounds m) :
    ∃ k ≤ rounds, ∃ x, Settles k m x := by
  induction rounds generalizing m with
  | zero =>
    have hend : ¬ m.pc < m.code.size := by
      rw [stopsWithin, decide_eq_true_eq] at h
      omega
    exact ⟨0, Nat.le_refl 0, _, .ended hend⟩
  | succ rounds ih =>
    rw [stopsWithin] at h
    by_cases hdue : m.pc < m.code.size
    · rw [if_pos hdue] at h
      cases hround : perform (round (.float 0.0)) m with
      | mk r m' =>
        rw [hround] at h
        rcases r with e | more
        · exact ⟨1, by omega, _, .fails hdue hround⟩
        · cases more with
          | false => exact ⟨1, by omega, _, .finishes hdue hround⟩
          | true =>
            obtain ⟨k, hk, x, hx⟩ := ih h
            exact ⟨k + 1, by omega, x, .goes hdue hround hx⟩
    · exact ⟨0, by omega, _, .ended hdue⟩

/-- What a run that ends by itself shows in its rounds, it shows in all rounds. -/
theorem throughout_of_stopsWithin {P : Machine → Prop} {rounds : Nat} {m : Machine}
    (h : stopsWithin rounds m) (hP : ∀ t ∈ (course (.float 0.0)).begun rounds m, P t) :
    Throughout P m := by
  induction rounds generalizing m with
  | zero =>
    intro rounds t ht
    have hend : ¬ (course (.float 0.0)).due m := by
      rw [stopsWithin, decide_eq_true_eq] at h
      show ¬ decide (m.pc < m.code.size) = true
      rw [decide_eq_true_eq]
      omega
    cases rounds with
    | zero => cases ht
    | succ rounds =>
      rw [Course.begun, if_neg hend] at ht
      cases ht
  | succ rounds ih =>
    intro more t ht
    cases more with
    | zero => cases ht
    | succ more =>
      rw [stopsWithin] at h
      rw [Course.begun] at ht hP
      by_cases hdue : m.pc < m.code.size
      · have hdue' : (course (.float 0.0)).due m = true := decide_eq_true hdue
        rw [if_pos hdue] at h
        rw [if_pos hdue'] at ht hP
        rw [List.forall_mem_cons] at hP
        rcases List.mem_cons.1 ht with rfl | hlater
        · exact hP.1
        · have hrest := hP.2
          generalize hround : perform (round (.float 0.0)) m = outcome at h
          rw [show (course (.float 0.0)).round.run.run m = outcome from hround] at hlater hrest
          obtain ⟨e | going, m'⟩ := outcome
          · cases hlater
          · cases going with
            | false => cases hlater
            | true => exact ih h hrest more t hlater
      · have hdue' : ¬ (course (.float 0.0)).due m = true := by
          show ¬ decide (m.pc < m.code.size) = true
          rwa [decide_eq_true_eq]
        rw [if_neg hdue'] at ht
        cases ht

/-! ## Changes -/

/-- A change of code. -/
inductive Change where
  | sled (marks : List Bool)
  | exchange (i : Nat)
  deriving DecidableEq

namespace Change

/-- Code with a change made in it. -/
def apply (code : Array UInt8) : Change → Array UInt8
  | .sled marks => (padded marks code.toList).toArray
  | .exchange i => exchangeAt code i

/-- A change does not matter to a round from here. -/
def Spares (m : Machine) : Change → Prop
  | .sled marks => SparedBySled marks m
  | .exchange i => SparedByExchange i m

variable {k : Nat} {m n : Machine} {x : Except Failure Unit × Machine}

theorem settles_of_sled (marks : List Bool) (hm : Settles k m x) (ht : m.traced = false) (hpc : m.pc = 0)
    (hspared : Throughout (SparedBySled marks) m) (hsame : SameContent m n)
    (hcode : n.code = (padded marks m.code.toList).toArray) (hpc' : n.pc = 0) :
    ∃ k' ≤ 2 * k, ∃ y, Settles k' n y ∧ SameEnding x y :=
  (inStep_sled marks m.code.toList).settles hm hspared
    { content := hsame, untraced := ht, left := m.code.toArray_toList.symm, right := hcode,
      place := ⟨0, hpc, hpc'⟩ }

/-- Code in which nothing is marked or exchanged runs in step with itself. -/
theorem settles_of_same (hm : Settles k m x) (ht : m.traced = false) (hpc : m.pc = 0)
    (hsame : SameContent m n) (hcode : n.code = m.code) (hpc' : n.pc = 0) :
    ∃ k' ≤ 2 * k, ∃ y, Settles k' n y ∧ SameEnding x y := by
  refine settles_of_sled [] hm ht hpc (fun _ t _ => ?_) hsame ?_ hpc'
  · exact ⟨fun _ _ _ => by simp [shift], fun _ _ _ => by simp [shift], fun _ => by simp [shift]⟩
  · rw [hcode, padded, m.code.toArray_toList]

/-- Code with a change made in it comes to the same end as the code, if the change does not matter. -/
theorem settles (c : Change) (hm : Settles k m x) (ht : m.traced = false) (hpc : m.pc = 0)
    (hspared : Throughout (fun t => c.Spares t) m) (hsame : SameContent m n)
    (hcode : n.code = c.apply m.code) (hpc' : n.pc = 0) :
    ∃ k' ≤ 2 * k, ∃ y, Settles k' n y ∧ SameEnding x y := by
  cases c with
  | sled marks => exact settles_of_sled marks hm ht hpc hspared hsame hcode hpc'
  | exchange i =>
    by_cases hex : exchanges m.code i
    · obtain ⟨w, rfl⟩ : ∃ w, i = w + 6 := by
        have hle : 6 ≤ i := by
          rw [exchanges, Bool.and_eq_true, decide_eq_true_eq] at hex
          exact hex.2
        exact ⟨i - 6, by omega⟩
      have ht' : n.traced = false := by rw [← ht, hsame.look Machine.traced fun _ => rfl]
      exact (inStep_exchange hex).settles hm hspared
        (.aligned ⟨ht, ht', rfl, hcode⟩ hsame 0 hpc hpc' (by omega))
    · rw [apply, exchangeAt_of_not hex] at hcode
      exact settles_of_same hm ht hpc hsame hcode hpc'

end Change

/-- None of the changes, made one after the other, matters to the run of the code that it is made
in. -/
def SparedBy : List Change → Machine → Prop
  | [], _ => True
  | c :: rest, m =>
    Throughout (fun t => c.Spares t) m ∧ SparedBy rest { m with code := c.apply m.code }

/-- Whether a change is found not to matter to a round from here. -/
def Change.sparesRound (m : Machine) : Change → Bool
  | .sled marks => decide (SparedBySled marks m)
  | .exchange i => !exchanges m.code i || clearsExchange (i - 6) m

/-- Whether none of the changes is found to matter, in runs of so many rounds at most. -/
def sparesRuns (rounds : Nat) : List Change → Machine → Bool
  | [], _ => true
  | c :: rest, m =>
    stopsWithin rounds m && ((course (.float 0.0)).begun rounds m).all (fun t => c.sparesRound t) &&
      sparesRuns rounds rest { m with code := c.apply m.code }

theorem Change.spares_of_sparesRound {c : Change} {m : Machine} (h : c.sparesRound m) : c.Spares m := by
  cases c with
  | sled marks => exact (of_decide_eq_true h : SparedBySled marks m)
  | exchange i =>
    intro hex
    rw [sparesRound, hex] at h
    exact clearOfExchange_of_clears h

theorem sparedBy_of_sparesRuns (rounds : Nat) {changes : List Change} {m : Machine}
    (h : sparesRuns rounds changes m) : SparedBy changes m := by
  induction changes generalizing m with
  | nil => trivial
  | cons c rest ih =>
    simp only [sparesRuns, Bool.and_eq_true, List.all_eq_true] at h
    obtain ⟨⟨hstops, hrounds⟩, hrest⟩ := h
    refine ⟨throughout_of_stopsWithin hstops fun t ht => ?_, ih hrest⟩
    exact Change.spares_of_sparesRound (hrounds t ht)

/-- Code with changes made in it comes to the same end as the code, if they do not matter. -/
theorem settles_of_sparedBy {changes : List Change} {k : Nat} {m : Machine}
    {x : Except Failure Unit × Machine} (hm : Settles k m x) (ht : m.traced = false) (hpc : m.pc = 0)
    (hspared : SparedBy changes m) :
    ∃ most, ∀ n, SameContent m n → n.code = changes.foldl Change.apply m.code → n.pc = 0 →
      ∃ k' ≤ most, ∃ y, Settles k' n y ∧ SameEnding x y := by
  induction changes generalizing k m x with
  | nil =>
    exact ⟨2 * k, fun n hsame hcode hpc' => Change.settles_of_same hm ht hpc hsame hcode hpc'⟩
  | cons c rest ih =>
    obtain ⟨hfirst, hrest⟩ := hspared
    obtain ⟨k₁, -, y, hsettles, hend⟩ :=
      c.settles (n := { m with code := c.apply m.code }) hm ht hpc hfirst rfl rfl hpc
    obtain ⟨most, hmost⟩ := ih hsettles ht hpc hrest
    refine ⟨most, fun n hsame hcode hpc' => ?_⟩
    obtain ⟨k', hk', z, hsettles', hend'⟩ := hmost n hsame hcode hpc'
    exact ⟨k', hk', z, hsettles', hend.trans hend'⟩

theorem exists_settles_of_sparedBy {changes : List Change} {k : Nat} {m : Machine}
    {x : Except Failure Unit × Machine} (hm : Settles k m x) (ht : m.traced = false) (hpc : m.pc = 0)
    (hspared : SparedBy changes m) :
    ∃ k' y, Settles k' { m with code := changes.foldl Change.apply m.code } y ∧ SameEnding x y := by
  obtain ⟨most, hmost⟩ := settles_of_sparedBy hm ht hpc hspared
  obtain ⟨k', -, y, hsettles, hend⟩ :=
    hmost { m with code := changes.foldl Change.apply m.code } rfl rfl hpc
  exact ⟨k', y, hsettles, hend⟩

/-! ## Variants -/

/-- The marks that a variant draws; it may do without. -/
def marksOf (code : Bytes) (g : Twister) : List Bool :=
  if g.unit.1 < changeChance then (drawMarks code.length g.unit.2).1 else []

/-- The generator after these draws. -/
def afterMarks (code : Bytes) (g : Twister) : Twister :=
  if g.unit.1 < changeChance then (drawMarks code.length g.unit.2).2 else g.unit.2

/-- The changes by which a variant is made. -/
def changesOf (code : Bytes) (g : Twister) : List Change :=
  .sled (marksOf code g) ::
    if (afterMarks code g).unit.1 < changeChance then
      (List.range (padded (marksOf code g) code).length).map .exchange
    else []

theorem slid_eq (code : Bytes) (g : Twister) :
    (if g.unit.1 < changeChance then sledded code g.unit.2 else (code, g.unit.2)) =
      (padded (marksOf code g) code, afterMarks code g) := by
  by_cases hchance : g.unit.1 < changeChance
  · rw [marksOf, afterMarks, if_pos hchance, if_pos hchance, if_pos hchance, sledded_eq]
  · rw [marksOf, afterMarks, if_neg hchance, if_neg hchance, if_neg hchance, padded]

theorem variant_fst (code : Bytes) (g : Twister) :
    (variant code g).1 =
      if (afterMarks code g).unit.1 < changeChance then exchanged (padded (marksOf code g) code)
      else padded (marksOf code g) code := by
  rw [variant, slid_eq]

theorem exchanged_eq (code : Bytes) :
    exchanged code =
      (((List.range code.length).map Change.exchange).foldl Change.apply code.toArray).toList := by
  rw [List.foldl_map]
  rfl

theorem variant_eq (code : Bytes) (g : Twister) :
    (variant code g).1 = ((changesOf code g).foldl Change.apply code.toArray).toList := by
  have hfirst (marks : List Bool) :
      Change.apply code.toArray (.sled marks) = (padded marks code).toArray := rfl
  rw [variant_fst, changesOf, List.foldl_cons, hfirst]
  by_cases hchance : (afterMarks code g).unit.1 < changeChance
  · rw [if_pos hchance, if_pos hchance, exchanged_eq]
  · rw [if_neg hchance, if_neg hchance, List.foldl_nil, List.toList_toArray]

/-- The changes by which the next variant of a lineage is made. -/
def nextChanges (code : Array UInt8) (g : Twister) : List Change :=
  changesOf code.toList (Twister.ofSeed (g.between 0 1000000).1)

theorem generations_succ (count : Nat) (code : Array UInt8) (g : Twister) :
    generations (count + 1) code.toList g =
      ((nextChanges code g).foldl Change.apply code).toList ::
        generations count ((nextChanges code g).foldl Change.apply code).toList
          (g.between 0 1000000).2 := by
  rw [generations, variant_eq, nextChanges]

/-- The changes that are drawn with these doubles. -/
def changesFrom (code : Bytes) : List Float → List Change
  | [] => []
  | u :: us =>
    let marks := if u < changeChance then (us.take code.length).map (fun u => decide (u < 0.1)) else []
    let later := if u < changeChance then us.drop code.length else us
    .sled marks ::
      match later with
      | [] => []
      | u :: _ => if u < changeChance then (List.range (padded marks code).length).map .exchange else []

theorem changesOf_of_yields {code : Bytes} {us : List Float} {g : Twister} (h : Twister.Yields us g)
    (hlength : code.length + 2 ≤ us.length) : changesOf code g = changesFrom code us := by
  have hlast {marks : List Bool} {later : List Float} (hmarks : marksOf code g = marks)
      (hlater : Twister.Yields later (afterMarks code g)) (hsome : 0 < later.length) :
      changesOf code g = .sled marks :: match later with
        | [] => []
        | u :: _ =>
          if u < changeChance then (List.range (padded marks code).length).map .exchange else [] := by
    cases later with
    | nil => cases hsome
    | cons u us => rw [changesOf, hmarks, hlater.1]
  cases us with
  | nil => cases hlength
  | cons u us =>
    obtain ⟨hu, hrest⟩ := h
    rw [List.length_cons] at hlength
    rw [changesFrom]
    by_cases hchance : u < changeChance
    · obtain ⟨hmarks, hlater⟩ := drawMarks_of_yields hrest (show code.length ≤ us.length by omega)
      simp only [if_pos hchance]
      refine hlast ?_ ?_ ?_
      · rw [marksOf, hu, if_pos hchance, hmarks]
      · rw [afterMarks, hu, if_pos hchance]
        exact hlater
      · rw [List.length_drop]
        omega
    · simp only [if_neg hchance]
      refine hlast ?_ ?_ ?_
      · rw [marksOf, hu, if_neg hchance]
      · rw [afterMarks, hu, if_neg hchance]
        exact hrest
      · omega

/-- None of the changes by which variants are made, each from the one before, matters to the run of
the code that it is made in. -/
def SparedLineage : (count : Nat) → Twister → Machine → Prop
  | 0, _, _ => True
  | count + 1, g, m =>
    SparedBy (nextChanges m.code g) m ∧
      SparedLineage count (g.between 0 1000000).2
        { m with code := (nextChanges m.code g).foldl Change.apply m.code }

/-- The changes that are made next, if this word is drawn first. -/
theorem nextChanges_of_feeds (code : Array UInt8) {g : Twister} {w : UInt32} {ws : List UInt32}
    {seed : Nat} (h : Twister.Feeds (w :: ws) g) (hseed : w.toNat >>> 12 = seed) (hlt : seed < 1000001)
    (hsize : code.size ≤ 310) :
    nextChanges code g =
        changesFrom code.toList (Twister.fractions (Twister.firstWords seed (2 * code.size + 4))) ∧
      Twister.Feeds ws (g.between 0 1000000).2 := by
  have hwidth : Twister.bitLength ((1000000 : Int) - 0 + 1).toNat = 20 := by decide
  have hseed' : w.toNat >>> (32 - Twister.bitLength ((1000000 : Int) - 0 + 1).toNat) = seed := by
    rw [hwidth, hseed]
  obtain ⟨hdrawn, hrest⟩ := h.between hseed' hlt
  refine ⟨?_, hrest⟩
  have habs : ((0 : Int) + seed).natAbs = seed := by omega
  have hfeeds := Twister.feeds_ofSeed (show ((0 : Int) + seed).natAbs < 0x100000000 by omega)
    (show 2 * code.size + 4 ≤ 624 by omega)
  rw [habs] at hfeeds
  rw [nextChanges, hdrawn]
  refine changesOf_of_yields hfeeds.yields ?_
  rw [Twister.length_fractions, Twister.length_firstWords, Array.length_toList]
  omega

/-- Whether none of the changes is found to matter by which variants are made, if these words are
drawn. -/
def sparesLineage (rounds : Nat) : (count : Nat) → List UInt32 → Machine → Bool
  | 0, _, _ => true
  | _ + 1, [], _ => false
  | count + 1, w :: ws, m =>
    Twister.strictly (w.toNat >>> 12) fun seed =>
      let changes :=
        changesFrom m.code.toList (Twister.fractions (Twister.firstWords seed (2 * m.code.size + 4)))
      seed < 1000001 && m.code.size ≤ 310 && sparesRuns rounds changes m &&
        sparesLineage rounds count ws { m with code := changes.foldl Change.apply m.code }

theorem sparedLineage_of_feeds {rounds count : Nat} {ws : List UInt32} {g : Twister} {m : Machine}
    (hfeeds : Twister.Feeds ws g) (h : sparesLineage rounds count ws m) : SparedLineage count g m := by
  induction count generalizing ws g m with
  | zero => trivial
  | succ count ih =>
    cases ws with
    | nil => cases h
    | cons w ws =>
      rw [sparesLineage, Twister.strictly_eq] at h
      simp only [Bool.and_eq_true, decide_eq_true_eq] at h
      obtain ⟨⟨⟨hlt, hsize⟩, hruns⟩, hlater⟩ := h
      obtain ⟨hnext, hrest⟩ := nextChanges_of_feeds m.code hfeeds rfl hlt hsize
      rw [SparedLineage, hnext]
      exact ⟨sparedBy_of_sparesRuns rounds hruns, ih hrest hlater⟩

/-- Variants come to the same end as the code, in a number of rounds that is bounded for all of
them. -/
theorem settles_of_sparedLineage {count : Nat} {g : Twister} {k : Nat} {m : Machine}
    {x : Except Failure Unit × Machine} (hm : Settles k m x) (ht : m.traced = false) (hpc : m.pc = 0)
    (hspared : SparedLineage count g m) :
    ∃ most, ∀ code ∈ m.code.toList :: generations count m.code.toList g, ∀ n, SameContent m n →
      n.code = code.toArray → n.pc = 0 → ∃ k' ≤ most, ∃ y, Settles k' n y ∧ SameEnding x y := by
  induction count generalizing g k m x with
  | zero =>
    refine ⟨2 * k, fun code hmem n hsame hcode hpc' => ?_⟩
    obtain rfl : code = m.code.toList := List.mem_singleton.1 hmem
    exact Change.settles_of_same hm ht hpc hsame hcode hpc'
  | succ count ih =>
    obtain ⟨hfirst, hrest⟩ := hspared
    obtain ⟨k₁, y, hsettles, hend⟩ := exists_settles_of_sparedBy hm ht hpc hfirst
    obtain ⟨most', hmost'⟩ := ih hsettles ht hpc hrest
    refine ⟨2 * k + most', fun code hmem n hsame hcode hpc' => ?_⟩
    rcases List.mem_cons.1 hmem with rfl | hlater
    · obtain ⟨k', hk', z, hz⟩ := Change.settles_of_same hm ht hpc hsame hcode hpc'
      exact ⟨k', by omega, z, hz⟩
    · rw [generations_succ] at hlater
      obtain ⟨k', hk', z, hsettles', hend'⟩ := hmost' code hlater n (hsame.recode _) hcode hpc'
      exact ⟨k', by omega, z, hsettles', hend.trans hend'⟩

/-- Code whose run ends by itself gives the same answer and prints the same in all its variants, if
none of the changes that they are made by matters to the run of the code that it is made in, and
once the step limit is large enough. -/
theorem variants_run_alike (image : Image) (count : Nat) (seed : Int) {seed' limit : Int}
    (hs : stopsWithin (Machine.start .plain image seed' limit false).roundsLeft
      (Machine.start .plain image seed' limit false))
    (hspared : SparedLineage count (Twister.ofSeed seed)
      (Machine.start .plain image seed' limit false)) (challenge : Bool) :
    ∃ enough : Int, ∀ limit' ≥ enough, ∀ code ∈ lineage image.code count seed,
      SameAnswer (Machine.run (.float 0.0) challenge (Machine.start .plain image seed' limit false))
        (Machine.run (.float 0.0) challenge
          (Machine.start .plain { image with code } seed' limit' false)) := by
  obtain ⟨k, hk, x, hx⟩ := exists_settles_of_stopsWithin hs
  obtain ⟨most, hmost⟩ := settles_of_sparedLineage hx rfl rfl hspared
  refine ⟨most, fun limit' hlimit code hmem => ?_⟩
  obtain ⟨k', hk', y, hy, hend⟩ := hmost code hmem
    (Machine.start .plain { image with code } seed' limit' false) rfl rfl rfl
  have hrounds : k' ≤ (Machine.start .plain { image with code } seed' limit' false).roundsLeft := by
    show k' ≤ (limit' - (0 : Nat)).toNat
    omega
  exact sameAnswer_run challenge (hx.loop_eq hk) (hy.loop_eq hrounds) hend

/-- Prints the sum of one and two. -/
def addition : Image where
  code := [0x01, 0x00, 0x00, 0x01, 0x01, 0x00, 0x20, 0x10, 0xFF]
  constants := [.int 1, .int 2]

theorem sparedLineage_addition :
    SparedLineage 2 (Twister.ofSeed 188) (Machine.start .plain addition 0 1000 false) := by
  have hfeeds := Twister.feeds_ofSeed (show (188 : Int).natAbs < 0x100000000 by decide)
    (show 2 ≤ 624 by decide)
  have hspares : sparesLineage 10 2 (Twister.firstWords 188 2)
      (Machine.start .plain addition 0 1000 false) := by decide +kernel
  exact sparedLineage_of_feeds hfeeds hspares

theorem variants_run_alike_addition :
    stopsWithin (Machine.start .plain addition 0 1000 false).roundsLeft
      (Machine.start .plain addition 0 1000 false) ∧
    SparedLineage 2 (Twister.ofSeed 188) (Machine.start .plain addition 0 1000 false) ∧
    ∃ enough : Int, ∀ limit' ≥ enough, ∀ code ∈ lineage addition.code 2 188,
      SameAnswer (Machine.run (.float 0.0) true (Machine.start .plain addition 0 1000 false))
        (Machine.run (.float 0.0) true
          (Machine.start .plain { addition with code } 0 limit' false)) := by
  have hs : stopsWithin (Machine.start .plain addition 0 1000 false).roundsLeft
      (Machine.start .plain addition 0 1000 false) := by decide +kernel
  exact ⟨hs, sparedLineage_addition, variants_run_alike addition 2 188 hs sparedLineage_addition true⟩

/-- Gives a variable a text, and prints it with another one behind it. -/
def joining : Image where
  code :=
    [0x01, 0x00, 0x80, 0x04, 0x00, 0x00, 0x03, 0x00, 0x00, 0x01, 0x01, 0x80, 0x20, 0x10, 0xFF]
  strings := ["a", "b"]
  slots := [("x", 0)]

theorem mem_lineage_joining :
    [0x01, 0x00, 0x80, 0x04, 0x00, 0x00, 0x01, 0x01, 0x80, 0x03, 0x00, 0x00, 0x20, 0x10, 0xFF] ∈
      lineage joining.code 1 1 := by
  have hfeeds := Twister.feeds_ofSeed (show (1 : Int).natAbs < 0x100000000 by decide)
    (show 1 ≤ 624 by decide)
  have hwords : Twister.firstWords (1 : Int).natAbs 1 = [577090037] := by decide +kernel
  rw [hwords] at hfeeds
  obtain ⟨hnext, -⟩ := nextChanges_of_feeds joining.code.toArray hfeeds
    (show _ = 140891 by decide) (by decide) (by decide)
  have hcode : (changesFrom joining.code.toArray.toList (Twister.fractions (Twister.firstWords 140891
      (2 * joining.code.toArray.size + 4)))).foldl Change.apply joining.code.toArray =
        #[0x01, 0x00, 0x80, 0x04, 0x00, 0x00, 0x01, 0x01, 0x80, 0x03, 0x00, 0x00, 0x20, 0x10, 0xFF] := by
    decide +kernel
  have hgenerations := generations_succ 0 joining.code.toArray (Twister.ofSeed 1)
  rw [hnext, hcode] at hgenerations
  rw [lineage, hgenerations]
  exact List.mem_cons_of_mem _ List.mem_cons_self

/-- Texts are joined the other way round by a variant with their pushes exchanged. -/
theorem variant_joins_otherwise :
    ∃ code ∈ lineage joining.code 1 1,
      stopsWithin 1000 (Machine.start .plain joining 0 1000 false) ∧
      stopsWithin 1000 (Machine.start .plain { joining with code } 0 1000 false) ∧
      (Machine.run (.float 0.0) false (Machine.start .plain joining 0 1000 false)).2.printed =
        #["ab\n"] ∧
      (Machine.run (.float 0.0) false
        (Machine.start .plain { joining with code } 0 1000 false)).2.printed = #["ba\n"] :=
  ⟨_, mem_lineage_joining, by decide +kernel, by decide +kernel, by decide +kernel, by decide +kernel⟩

end Birokrasi.Disguise
