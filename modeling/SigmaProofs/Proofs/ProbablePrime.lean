import Mathlib.FieldTheory.Finite.Basic
import SigmaProofs.Arithmetic.ProbablePrime
import SigmaProofs.Proofs.Modular

/-!
# The test for primes

With `n - 1 = d * 2 ^ k` and `d` odd, the test looks at the residues `b ^ d`, `b ^ (d * 2)`, …, of
which each is the square of the one before.

* `StrongProbablePrime n d k b`: the first of them is 1, or one of the first `k` is -1.
* `isStrongProbablePrime_iff`: this is what is computed for one base.
* `strongProbablePrime_of_prime`: it holds for a prime and every base that is not a multiple of it,
  as 1 has no other square roots than 1 and -1 modulo a prime (`eq_one_or_exists_eq_neg_one`).
* `isProbablePrime_spec`: which numbers pass the whole test. Every prime does.
-/

namespace SigmaProofs

variable {n d k b : Nat}

/-! ## The odd part of a number -/

theorem oddPart_odd (hn : n ≠ 0) : (oddPart n).1 % 2 = 1 := by
  fun_induction oddPart n with
  | case1 n h => omega
  | case2 n h d k hd ih =>
    rw [hd] at ih
    exact ih (by omega)

/-- There is one way only to take the factors 2 out of a number. -/
theorem oddPart_unique (hd : d % 2 = 1) : oddPart (d * 2 ^ k) = (d, k) := by
  induction k with
  | zero => rw [Nat.pow_zero, Nat.mul_one, oddPart, if_pos (.inr hd)]
  | succ k ih =>
    have hpos : 0 < d * 2 ^ k := Nat.mul_pos (by omega) (Nat.two_pow_pos k)
    have hdouble : d * 2 ^ (k + 1) = 2 * (d * 2 ^ k) := by rw [Nat.pow_succ]; ring
    rw [hdouble, oddPart, if_neg (by omega), Nat.mul_div_cancel_left _ Nat.two_pos, ih]

/-! ## One base -/

/-- With `n - 1 = d * 2 ^ k`, the power `b ^ d` is 1 modulo `n`, or its repeated square
`b ^ (d * 2 ^ i)` is -1 for some `i` below `k`. -/
def StrongProbablePrime (n d k b : Nat) : Prop :=
  (b : ZMod n) ^ d = 1 ∨ ∃ i < k, (b : ZMod n) ^ (d * 2 ^ i) = -1

theorem cast_eq_one_iff (hn : 1 < n) {x : Nat} (hx : x < n) : (x : ZMod n) = 1 ↔ x = 1 := by
  constructor
  · intro h
    exact eq_of_cast hx hn (by rw [h, Nat.cast_one])
  · rintro rfl
    exact Nat.cast_one

theorem cast_eq_neg_one_iff (hn : 1 < n) {x : Nat} (hx : x < n) :
    (x : ZMod n) = -1 ↔ x = n - 1 := by
  have hminus : ((n - 1 : Nat) : ZMod n) = -1 := by
    rw [Nat.cast_pred (by omega), ZMod.natCast_self, zero_sub]
  constructor
  · intro h
    exact eq_of_cast hx (by omega) (by rw [h, hminus])
  · rintro rfl
    exact hminus

theorem reachesMinusOne_iff (hn : 1 < n) {x : Nat} (hx : x < n) :
    reachesMinusOne n k x = true ↔ ∃ i < k, (x : ZMod n) ^ 2 ^ i = -1 := by
  induction k generalizing x with
  | zero => simp [reachesMinusOne]
  | succ k ih =>
    have hsquare : ∀ i, ((x * x % n : Nat) : ZMod n) ^ 2 ^ i = (x : ZMod n) ^ 2 ^ (i + 1) := by
      intro i
      rw [ZMod.natCast_mod, Nat.cast_mul, ← pow_two, ← pow_mul, Nat.pow_succ']
    rw [reachesMinusOne, Bool.or_eq_true, beq_iff_eq, ih (Nat.mod_lt _ (by omega)),
      ← cast_eq_neg_one_iff hn hx]
    simp only [hsquare]
    constructor
    · rintro (h | ⟨i, hi, h⟩)
      · exact ⟨0, by omega, by simpa using h⟩
      · exact ⟨i + 1, by omega, h⟩
    · rintro ⟨_ | i, hi, h⟩
      · exact .inl (by simpa using h)
      · exact .inr ⟨i, by omega, h⟩

theorem isStrongProbablePrime_iff (hn : 1 < n) :
    isStrongProbablePrime n d k b = true ↔ StrongProbablePrime n d k b := by
  have hlt : powMod b d n < n := powMod_lt (by omega)
  rw [isStrongProbablePrime, Bool.or_eq_true, beq_iff_eq, reachesMinusOne_iff hn hlt,
    ← cast_eq_one_iff hn hlt, cast_powMod]
  simp only [← pow_mul]
  rfl

/-! ## Primes pass -/

/-- Where 1 has no square roots but 1 and -1, a repeated square that ends at 1 starts there or
comes by -1. -/
theorem eq_one_or_exists_eq_neg_one {R : Type} [CommRing R] [NoZeroDivisors R] {y : R}
    (h : y ^ 2 ^ k = 1) : y = 1 ∨ ∃ i < k, y ^ 2 ^ i = -1 := by
  induction k with
  | zero => exact .inl (by simpa using h)
  | succ k ih =>
    rw [Nat.pow_succ, pow_mul, pow_two] at h
    obtain h | h := mul_self_eq_one_iff.mp h
    · obtain h | ⟨i, hi, h⟩ := ih h
      · exact .inl h
      · exact .inr ⟨i, by omega, h⟩
    · exact .inr ⟨k, by omega, h⟩

/-- A prime is a strong probable prime to every base that it does not divide. -/
theorem strongProbablePrime_of_prime (hn : n.Prime) (hk : n - 1 = d * 2 ^ k) (hb : ¬ n ∣ b) :
    StrongProbablePrime n d k b := by
  have : Fact n.Prime := ⟨hn⟩
  have hne : (b : ZMod n) ≠ 0 := by rwa [Ne, ZMod.natCast_eq_zero_iff]
  have hfermat := ZMod.pow_card_sub_one_eq_one hne
  rw [hk, pow_mul] at hfermat
  obtain h | ⟨i, hi, h⟩ := eq_one_or_exists_eq_neg_one hfermat
  · exact .inl h
  · exact .inr ⟨i, hi, by rwa [pow_mul]⟩

/-! ## The whole test -/

theorem mem_smallPrimes_iff : n ∈ smallPrimes ↔ n.Prime ∧ n < 73 := by
  have hlt : ∀ p ∈ smallPrimes, p < 73 := by decide
  have hprime : ∀ p < 73, p ∈ smallPrimes ↔ p.Prime := by decide
  constructor
  · intro h
    exact ⟨(hprime n (hlt n h)).mp h, hlt n h⟩
  · rintro ⟨hp, hn⟩
    exact (hprime n hn).mpr hp

theorem isProbablePrime_iff_oddPart : isProbablePrime n = true ↔ n ∈ smallPrimes ∨
    1 < n ∧ (∀ b ∈ smallPrimes, ¬ b ∣ n) ∧ ∀ b ∈ smallPrimes,
      StrongProbablePrime n (oddPart (n - 1)).1 (oddPart (n - 1)).2 b := by
  simp only [isProbablePrime, Bool.or_eq_true, Bool.and_eq_true, List.contains_iff_mem,
    decide_eq_true_eq, List.all_eq_true, bne_iff_ne, Nat.dvd_iff_mod_eq_zero]
  refine or_congr_right ⟨?_, ?_⟩
  · rintro ⟨⟨hn, hdvd⟩, h⟩
    exact ⟨hn, hdvd, fun b hb => (isStrongProbablePrime_iff hn).mp (h b hb)⟩
  · rintro ⟨hn, hdvd, h⟩
    exact ⟨⟨hn, hdvd⟩, fun b hb => (isStrongProbablePrime_iff hn).mpr (h b hb)⟩

/-- What it means to pass: to be one of the first twenty primes, or to have none of them as a
factor and to be a strong probable prime to each of them. -/
def PassesAllBases (n : Nat) : Prop :=
  n ∈ smallPrimes ∨ 1 < n ∧ (∀ b ∈ smallPrimes, ¬ b ∣ n) ∧
    ∃ d k, d % 2 = 1 ∧ n - 1 = d * 2 ^ k ∧ ∀ b ∈ smallPrimes, StrongProbablePrime n d k b

theorem isProbablePrime_iff : isProbablePrime n = true ↔ PassesAllBases n := by
  rw [isProbablePrime_iff_oddPart]
  refine or_congr_right (and_congr_right fun hn => and_congr_right fun _ => ⟨?_, ?_⟩)
  · intro h
    exact ⟨_, _, oddPart_odd (by omega), oddPart_eq (n - 1), h⟩
  · rintro ⟨d, k, hd, hk, h⟩
    rwa [hk, oddPart_unique hd]

theorem isProbablePrime_of_prime (hn : n.Prime) : isProbablePrime n = true := by
  rw [isProbablePrime_iff_oddPart]
  by_cases hsmall : n ∈ smallPrimes
  · exact .inl hsmall
  -- A larger prime has no factor among the bases, nor do the bases have it as a factor.
  have hne : ∀ b ∈ smallPrimes, ¬ b ∣ n ∧ ¬ n ∣ b := by
    intro b hb
    have hp := (mem_smallPrimes_iff.mp hb).1
    have hbn : b ≠ n := by
      rintro rfl
      exact hsmall hb
    exact ⟨fun h => hbn ((Nat.prime_dvd_prime_iff_eq hp hn).mp h),
      fun h => hbn ((Nat.prime_dvd_prime_iff_eq hn hp).mp h).symm⟩
  exact .inr ⟨hn.one_lt, fun b hb => (hne b hb).1, fun b hb =>
    strongProbablePrime_of_prime hn (oddPart_eq (n - 1)) (hne b hb).2⟩

/-- The test accepts exactly the first twenty primes and the numbers without a factor among them
that are strong probable primes to all of them. It accepts every prime. -/
theorem isProbablePrime_spec (n : Nat) :
    (isProbablePrime n = true ↔ PassesAllBases n) ∧ (n.Prime → isProbablePrime n = true) ∧
      (n ∈ smallPrimes ↔ n.Prime ∧ n < 73) ∧ smallPrimes.length = 20 :=
  ⟨isProbablePrime_iff, isProbablePrime_of_prime, mem_smallPrimes_iff, rfl⟩

end SigmaProofs
