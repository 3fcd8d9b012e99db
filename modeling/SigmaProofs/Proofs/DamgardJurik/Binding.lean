import Mathlib.Data.Nat.Squarefree
import Mathlib.RingTheory.ZMod.UnitsCyclic
import SigmaProofs.Proofs.CiphertextSoundness
import SigmaProofs.Proofs.DamgardJurik.Homomorphism

/-!
# A ciphertext determines its plaintext

If two encryptions with units are equal, their plaintexts are equal modulo `N`. This needs a modulus
without square factors, and is shown for each prime factor `p` of `n` alone, modulo `p ^ (s + 1)`.
There the units have `p ^ s * (p - 1)` elements, so the power with `p - 1` takes the randomness away,
and what it leaves is a power of `1 + n`, which has order `p ^ s`. The exponent `p - 1` has no factor
`p`, whatever other factors of `n` it has.

* `Key.orderOf_generator`, `Key.root_pow_eq_one`: the two facts about a prime factor.
* `Key.modEq_of_encrypt_eq`: all prime factors together.
* `Key.Binding`: what this means for statements. Keys made from two primes are like this
  (`Key.binding_of_ofPrimes`).
-/

namespace SigmaProofs.DamgardJurik.Key

variable {key : Key}

/-! ## Prime factors -/

section PrimeFactor

variable {p m : Nat} (hp : p.Prime) (hn : key.n = p * m)

include hp hn

/-- The base of the plaintexts, modulo a power of a prime factor. -/
theorem orderOf_generator (hm : p.Coprime m) :
    orderOf (1 + key.n : ZMod (p ^ (key.s + 1))) = p ^ key.s := by
  have hodd : p ≠ 2 := by
    rintro rfl
    have := key.n_odd
    omega
  have hfactor : ¬ (p : Int) ∣ (m : Int) := by
    rw [Int.natCast_dvd_natCast]
    exact hp.coprime_iff_not_dvd.mp hm
  have horder := ZMod.orderOf_one_add_mul_prime hp hodd m hfactor key.s
  rw [hn, Nat.cast_mul]
  rwa [Int.cast_natCast] at horder

/-- The exponent of the randomness has the factor `p ^ s` in common with the number of units. -/
theorem root_pow_eq_one {r : Nat} (hr : r.Coprime key.n) :
    ((r : ZMod (p ^ (key.s + 1))) ^ key.plaintextModulus) ^ (p - 1) = 1 := by
  have hdvd : p ∣ key.n := Dvd.intro m hn.symm
  have hcoprime : r.Coprime (p ^ (key.s + 1)) := (hr.coprime_dvd_right hdvd).pow_right _
  have hone := (ZMod.natCast_eq_natCast_iff _ _ _).mpr (Nat.ModEq.pow_totient hcoprime)
  rw [Nat.totient_prime_pow_succ hp, Nat.cast_pow, Nat.cast_one] at hone
  have hpow : p ^ key.s ∣ key.plaintextModulus := pow_dvd_pow_of_dvd hdvd key.s
  obtain ⟨k, hk⟩ := Nat.mul_dvd_mul_right hpow (p - 1)
  rw [← pow_mul, hk, pow_mul, hone, one_pow]

/-- Equal encryptions have equal plaintexts modulo a power of a prime factor. -/
theorem modEq_primePow_of_encrypt_eq (hm : p.Coprime m) {x x' r r' : Nat}
    (hr : r.Coprime key.n) (hr' : r'.Coprime key.n)
    (h : key.encrypt x r = key.encrypt x' r') : x ≡ x' [MOD p ^ key.s] := by
  have hdvd : p ∣ key.n := Dvd.intro m hn.symm
  have hcast : (1 + key.n : ZMod (p ^ (key.s + 1))) ^ x * r ^ key.plaintextModulus =
      (1 + key.n) ^ x' * r' ^ key.plaintextModulus := by
    rw [encrypt_eq, encrypt_eq] at h
    have hmod := Nat.ModEq.of_dvd (pow_dvd_pow_of_dvd hdvd (key.s + 1)) h
    exact_mod_cast (ZMod.natCast_eq_natCast_iff _ _ _).mpr hmod
  -- without the randomness
  have hpow : (1 + key.n : ZMod (p ^ (key.s + 1))) ^ (x * (p - 1)) =
      (1 + key.n) ^ (x' * (p - 1)) := by
    have hpred := congrArg (· ^ (p - 1)) hcast
    simpa only [mul_pow, root_pow_eq_one hp hn hr, root_pow_eq_one hp hn hr', mul_one,
      ← pow_mul] using hpred
  -- exponents are compared in the group of units
  obtain ⟨g, hg⟩ : IsUnit (1 + key.n : ZMod (p ^ (key.s + 1))) := by
    have hcoprime : (1 + key.n).Coprime (p ^ (key.s + 1)) := by
      refine Nat.Coprime.pow_right _ (Nat.Coprime.coprime_dvd_right hdvd ?_)
      simp
    exact_mod_cast (ZMod.isUnit_iff_coprime _ _).mpr hcoprime
  have hexp : x * (p - 1) ≡ x' * (p - 1) [MOD p ^ key.s] := by
    rw [← orderOf_generator hp hn hm, ← hg, orderOf_units, ← pow_eq_pow_iff_modEq]
    apply Units.ext
    push_cast
    rw [hg]
    exact hpow
  have hcancel : (p ^ key.s).Coprime (p - 1) :=
    ((Nat.coprime_self_sub_right hp.one_le).mpr (Nat.coprime_one_right p)).pow_left _
  exact Nat.ModEq.cancel_right_of_coprime hcancel hexp

end PrimeFactor

/-! ## Plaintexts -/

/-- Equal encryptions have equal plaintexts, if no square divides the modulus. -/
theorem modEq_of_encrypt_eq (hn : Squarefree key.n) {x x' r r' : Nat} (hr : r.Coprime key.n)
    (hr' : r'.Coprime key.n) (h : key.encrypt x r = key.encrypt x' r') :
    x ≡ x' [MOD key.plaintextModulus] := by
  rw [Nat.modEq_iff_dvd, Int.natCast_dvd, Nat.dvd_iff_prime_pow_dvd_dvd]
  intro p k hp hk
  rcases k with _ | k
  · exact Nat.one_dvd _
  obtain ⟨m, hm⟩ : p ∣ key.n :=
    hp.dvd_of_dvd_pow (Nat.dvd_trans (dvd_pow_self p k.succ_ne_zero) hk)
  rw [hm, Nat.squarefree_mul_iff] at hn
  -- the power of `p` in `N` is that with exponent `s`
  rw [plaintextModulus_def, hm, Nat.mul_pow] at hk
  have hpow : p ^ (k + 1) ∣ p ^ key.s :=
    Nat.Coprime.dvd_of_dvd_mul_right (Nat.Coprime.pow _ _ hn.1) hk
  have hmod := modEq_primePow_of_encrypt_eq hp hm hn.1 hr hr' h
  rw [Nat.modEq_iff_dvd, Int.natCast_dvd] at hmod
  exact Nat.dvd_trans hpow hmod

theorem squarefree_of_ofPrimes {p q s : Nat} (h : ofPrimes p q s = .ok key) (hp : p.Prime)
    (hq : q.Prime) : Squarefree key.n := by
  obtain ⟨⟨hne, -⟩, hn, -⟩ := ofPrimes_eq_ok.mp h
  rw [hn, Nat.squarefree_mul_iff]
  exact ⟨(Nat.coprime_primes hp hq).mpr hne, hp.prime.squarefree, hq.prime.squarefree⟩

/-! ## Statements -/

/-- Ciphertexts of the key have one plaintext at most, modulo `N`. So no two statements about the
value of a ciphertext are true, and only encryptions of multiples of `N` encrypt zero. -/
structure Binding (key : Key) : Prop where
  modEq {x x' r r' : Nat} (hr : r.Coprime key.n) (hr' : r'.Coprime key.n)
    (h : key.encrypt x r = key.encrypt x' r') : x ≡ x' [MOD key.n ^ key.s]
  value_unique {E : Type} {c x x' : Nat} (hx : x < key.n ^ key.s) (hx' : x' < key.n ^ key.s)
    (h : (Statement.djValue key c x : Statement E).HasOpening)
    (h' : (Statement.djValue key c x' : Statement E).HasOpening) : x = x'
  zero_iff {E : Type} {x r : Nat} (hr : r.Coprime key.n) :
    (Statement.djZero key (key.encrypt x r) : Statement E).HasOpening ↔ key.n ^ key.s ∣ x

theorem binding_of_squarefree (hn : Squarefree key.n) : key.Binding where
  modEq := modEq_of_encrypt_eq hn
  value_unique {E c x x'} hx hx' h h' := by
    obtain ⟨r, hr, henc⟩ := Statement.hasOpening_djValue.mp h
    obtain ⟨r', hr', henc'⟩ := Statement.hasOpening_djValue.mp h'
    have hmod := modEq_of_encrypt_eq hn hr hr' (henc.symm.trans henc')
    exact hmod.eq_of_lt_of_lt hx hx'
  zero_iff {E x r} hr := by
    have hself : key.Encrypts (key.encrypt x r) x r := encrypts_encrypt rfl
    rw [Statement.hasOpening_djZero, ← Nat.modEq_zero_iff_dvd]
    constructor
    · rintro ⟨r', hr', henc⟩
      exact modEq_of_encrypt_eq hn hr hr' (hself.symm.trans henc)
    · intro hx
      exact ⟨r, hr, encrypts_encrypt hx⟩

/-- The primes may have any lengths, and one may be a factor of the other less 1. -/
theorem binding_of_ofPrimes {p q s : Nat} (h : ofPrimes p q s = .ok key) (hp : p.Prime)
    (hq : q.Prime) : (key.n = p * q ∧ key.s = s) ∧ key.Binding :=
  ⟨(ofPrimes_eq_ok.mp h).2, binding_of_squarefree (squarefree_of_ofPrimes h hp hq)⟩

/-- For the primes 3 and 7, where 3 divides 7 - 1, and plaintexts modulo 441. -/
theorem binding_of_ofPrimes_three_seven :
    ofPrimes 3 7 2 = .ok ⟨21, 2, by decide, by decide, by decide, by decide⟩ ∧
      Binding ⟨21, 2, by decide, by decide, by decide, by decide⟩ := by
  have h : ofPrimes 3 7 2 = .ok ⟨21, 2, by decide, by decide, by decide, by decide⟩ := by
    decide +kernel
  exact ⟨h, (binding_of_ofPrimes h (by norm_num) (by norm_num)).2⟩

end SigmaProofs.DamgardJurik.Key
