import Birokrasi.Challenge.Prime
import Birokrasi.Proofs.WholeRoots

/-!
# Trial division finds the primes

Only odd divisors are tried, from three up to the integer part of the square root. A number that is not
prime has a divisor up to its square root, and the divisors of an odd number are odd, so nothing is missed
(`noneDivides_iff_prime`). The square of a prime is found by the very last divisor. The main statement is
`isPrime_decides`: all that is asked of the square root in doubles is its integer part, and this is right
below `2 ^ 52` (`trialBound_of_lt`).
-/

namespace Birokrasi

namespace Number

theorem int_less_int (m n : Int) : (Number.int m).less (.int n) = decide (m < n) := by
  rw [Bool.eq_iff_iff, less, beq_iff_eq, compare?, Option.some_inj, Int.compare_eq_lt,
    decide_eq_true_eq]

theorem int_equal_int (m n : Int) : (Number.int m).equal (.int n) = decide (m = n) := by
  rw [Bool.eq_iff_iff, equal, beq_iff_eq, compare?, Option.some_inj, Int.compare_eq_eq,
    decide_eq_true_eq]

end Number

namespace Challenge

/-! ## Divisors -/

/-- The numbers tried are `d`, `d + 2` and so on. -/
theorem noneDivides_iff (n count d : Nat) :
    noneDivides n count d = true ↔ ∀ k < count, ¬ d + 2 * k ∣ n := by
  induction count generalizing d with
  | zero => simp [noneDivides]
  | succ count ih =>
    have hnext (k : Nat) : d + 2 * (k + 1) = d + 2 + 2 * k := by omega
    rw [noneDivides, Bool.and_eq_true, bne_iff_ne, ne_eq, ← Nat.dvd_iff_mod_eq_zero, ih]
    constructor
    · rintro ⟨hfirst, hlater⟩ k hk
      cases k with
      | zero => exact hfirst
      | succ k =>
        rw [hnext]
        exact hlater k (by omega)
    · intro h
      refine ⟨h 0 (by omega), fun k hk => ?_⟩
      rw [← hnext]
      exact h (k + 1) (by omega)

/-- An odd number is prime if no odd number from three up to its square root divides it. -/
theorem noneDivides_iff_prime {n : Nat} (hn : 2 ≤ n) (hodd : n % 2 = 1) :
    noneDivides n ((n.sqrt - 1) / 2) 3 = true ↔ n.Prime := by
  rw [noneDivides_iff, Nat.prime_def_le_sqrt]
  constructor
  · intro h
    refine ⟨hn, fun d hlow hhigh hd => ?_⟩
    have hdodd : d % 2 = 1 := by
      have htwo : ¬ 2 ∣ d := fun h2 => by
        have := Nat.mod_eq_zero_of_dvd (h2.trans hd)
        omega
      omega
    refine h ((d - 3) / 2) (by omega) ?_
    rwa [show 3 + 2 * ((d - 3) / 2) = d by omega]
  · rintro ⟨-, h⟩ k hk
    exact h (3 + 2 * k) (by omega) (by omega)

/-! ## The answer -/

/-- Below `2 ^ 52` the largest divisor tried is the integer square root. -/
theorem trialBound_of_lt {n : Int} (hpos : 0 < n) (hn : n < 2 ^ 52) :
    trialBound (.int n) = .ok (n.toNat.sqrt : Int) := by
  obtain ⟨n, rfl⟩ := Int.eq_ofNat_of_zero_le hpos.le
  obtain ⟨x, hx, hwhole⟩ := Number.exists_floatOfInt (n := (n : Int)) (by omega)
  have hsqrt := hwhole.truncate?_sqrt (by omega) (by omega)
  rw [trialBound, Number.toFloat, hx, ok_bind, Number.intOfFloat, hsqrt, Int.toNat_natCast]

theorem isPrime_int (n : Int) :
    isPrime (.int n) =
      if n < 2 then .ok false
      else if n = 2 then .ok true
      else if n % 2 = 0 then .ok false
      else (trialBound (.int n)).map fun bound => noneDivides n.toNat ((bound - 1) / 2).toNat 3 := by
  have hmod : (Number.int n).mod (.int 2) = .ok (.int (n % 2)) := by
    rw [Number.mod, if_neg (by decide), Int.fmod_eq_emod_of_nonneg n (by decide)]
  show isPrimeNumber (.int n) = _
  unfold isPrimeNumber
  simp only [Number.int_less_int, Number.int_equal_int, hmod, ok_bind, decide_eq_true_eq]
  split
  · rfl
  split
  · rfl
  split
  · rfl
  cases trialBound (.int n) <;> rfl

/-- An odd number of at least three with its integer square root as the largest divisor tried. -/
theorem isPrime_of_trialBound {n : Int} (hn : 2 < n) (hodd : n % 2 ≠ 0)
    (h : trialBound (.int n) = .ok (n.toNat.sqrt : Int)) :
    isPrime (.int n) = .ok (decide n.toNat.Prime) := by
  have hcount : (((n.toNat.sqrt : Int) - 1) / 2).toNat = (n.toNat.sqrt - 1) / 2 := by omega
  have hprime := noneDivides_iff_prime (n := n.toNat) (by omega) (by omega)
  rw [isPrime_int, if_neg (by omega), if_neg (by omega), if_neg hodd, h, Except.map, hcount,
    Bool.eq_iff_iff.2 (hprime.trans decide_eq_true_iff.symm)]

/-- Every integer is told to be prime or not as it is, if the largest divisor tried is its integer square
root: nothing else is asked of the square root in doubles, and below `2 ^ 52` not even that. An integer
below zero counts as zero, which is not prime. -/
theorem isPrime_decides (n : Int) (h : n < 2 ^ 52 ∨ trialBound (.int n) = .ok (n.toNat.sqrt : Int)) :
    isPrime (.int n) = .ok (decide n.toNat.Prime) := by
  by_cases hsmall : n < 2
  · have hnot : ¬ n.toNat.Prime := fun hp => by
      have := hp.two_le
      omega
    rw [isPrime_int, if_pos hsmall, decide_eq_false hnot]
  by_cases htwo : n = 2
  · subst htwo
    rw [isPrime_int, if_neg (by decide), if_pos rfl]
    exact congrArg Except.ok (decide_eq_true Nat.prime_two).symm
  by_cases heven : n % 2 = 0
  · have hnot : ¬ n.toNat.Prime := fun hp => by
      rcases hp.eq_two_or_odd with h2 | h2
      · omega
      · omega
    rw [isPrime_int, if_neg hsmall, if_neg htwo, if_pos heven, decide_eq_false hnot]
  refine isPrime_of_trialBound (by omega) heven ?_
  rcases h with hlt | hbound
  · exact trialBound_of_lt (by omega) hlt
  · exact hbound

/-- The square of a prime, above `2 ^ 52`: only the last divisor tried divides it. -/
theorem isPrime_decides_square :
    ¬ (94906249 * 94906249 : Int) < 2 ^ 52 ∧ trialBound (.int (94906249 * 94906249)) = .ok 94906249 ∧
      isPrime (.int (94906249 * 94906249)) = .ok false := by
  have htoNat : (94906249 * 94906249 : Int).toNat = 94906249 * 94906249 := rfl
  have hbound : trialBound (.int (94906249 * 94906249)) = .ok 94906249 := by
    have heval : (trialBound (.int (94906249 * 94906249))).toOption = some 94906249 := by
      decide +kernel
    cases htrial : trialBound (.int (94906249 * 94906249)) with
    | error f =>
      rw [htrial] at heval
      cases heval
    | ok bound =>
      rw [htrial] at heval
      exact congrArg Except.ok (Option.some.inj heval)
  have hnot : ¬ (94906249 * 94906249 : Nat).Prime := Nat.not_prime_mul (by decide) (by decide)
  have hanswer := isPrime_decides (94906249 * 94906249) (.inr (by
    rw [htoNat, Nat.sqrt_eq]
    exact hbound))
  rw [htoNat, decide_eq_false hnot] at hanswer
  exact ⟨by norm_num, hbound, hanswer⟩

end Challenge

end Birokrasi
