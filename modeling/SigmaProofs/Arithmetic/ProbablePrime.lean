import SigmaProofs.Arithmetic.Power

/-!
# A test for primes

`isProbablePrime` tries the first twenty primes as divisors and then as bases of the
Miller–Rabin test. It accepts every prime; a composite number passes only if it is a strong
probable prime to all bases.
-/

namespace SigmaProofs

/-- The first twenty primes. -/
def smallPrimes : List Nat :=
  [2, 3, 5, 7, 11, 13, 17, 19, 23, 29, 31, 37, 41, 43, 47, 53, 59, 61, 67, 71]

/-- `(d, k)` with `n = d * 2 ^ k` and `d` odd, for `n` not zero. -/
def oddPart (n : Nat) : Nat × Nat :=
  if n = 0 ∨ n % 2 = 1 then (n, 0)
  else
    let (d, k) := oddPart (n / 2)
    (d, k + 1)
termination_by n
decreasing_by omega

/-- Whether one of `x`, `x ^ 2`, `x ^ 4`, …, in all `k` numbers, is `n - 1` modulo `n`. -/
def reachesMinusOne (n : Nat) : Nat → Nat → Bool
  | 0, _ => false
  | k + 1, x => x == n - 1 || reachesMinusOne n k (x * x % n)

/-- Whether `n`, with `n - 1 = d * 2 ^ k`, is a strong probable prime to the base `b`. -/
def isStrongProbablePrime (n d k b : Nat) : Bool :=
  let x := powMod b d n
  x == 1 || reachesMinusOne n k x

/-- Whether `n` is one of the small primes, or has none of them as a factor and is a strong
probable prime to each of them. -/
def isProbablePrime (n : Nat) : Bool :=
  smallPrimes.contains n ||
    (1 < n && smallPrimes.all (fun b => n % b != 0) &&
      let (d, k) := oddPart (n - 1)
      smallPrimes.all (isStrongProbablePrime n d k))

theorem oddPart_eq (n : Nat) : n = (oddPart n).1 * 2 ^ (oddPart n).2 := by
  fun_induction oddPart n with
  | case1 => simp
  | case2 n h d k hd ih =>
    rw [hd] at ih
    simp only at ih
    rw [Nat.pow_succ, ← Nat.mul_assoc, ← ih]
    omega

end SigmaProofs
