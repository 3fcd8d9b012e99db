import Mathlib.NumberTheory.Basic
import SigmaProofs.DamgardJurik
import SigmaProofs.Proofs.Modular

/-!
# Encryption as arithmetic modulo `n ^ (s + 1)`

Ciphertexts are computed with in the ring `key.Ring` of residues modulo `N'`. There the encryption
of `x` with randomness `r` is `(n + 1) ^ x * r ^ N` (`Key.cast_encrypt`).

* `Key.pow_eq_of_modEq`: an `N`-th power modulo `N'` depends on its base modulo `n` only.
* `Key.generator_pow_mod`: the exponent of `n + 1` counts modulo `N`.
* `Key.Encrypts`: a number is a ciphertext, in terms of residues (`encrypts_iff`). The randomness of
  a unit is a unit (`Encrypts.coprime`).
-/

namespace SigmaProofs.DamgardJurik.Key

variable (key : Key)

/-! ## The moduli -/

theorem one_lt_n : 1 < key.n := Nat.lt_trans (by decide) key.n_gt

theorem n_pos : 0 < key.n := Nat.lt_trans Nat.one_pos key.one_lt_n

theorem one_lt_ciphertextModulus : 1 < key.ciphertextModulus :=
  Nat.one_lt_pow (Nat.succ_ne_zero _) key.one_lt_n

theorem ciphertextModulus_pos : 0 < key.ciphertextModulus :=
  Nat.lt_trans Nat.one_pos key.one_lt_ciphertextModulus

theorem plaintextModulus_pos : 0 < key.plaintextModulus :=
  Nat.pow_pos key.n_pos

/-- A number is coprime with both moduli or with none. -/
theorem coprime_ciphertextModulus {a : Nat} :
    a.Coprime key.ciphertextModulus ↔ a.Coprime key.n :=
  Nat.coprime_pow_right_iff (Nat.succ_pos _) a key.n

variable {key} in
theorem ofModulus_eq_ok {n s : Nat} : ofModulus n s = .ok key ↔ key.n = n ∧ key.s = s := by
  constructor
  · intro h
    unfold ofModulus at h
    split_ifs at h
    obtain rfl := Except.ok.inj h
    exact ⟨rfl, rfl⟩
  · rintro ⟨rfl, rfl⟩
    have hs := key.s_pos
    have hs' := key.s_lt
    rw [ofModulus, dif_neg (by omega), dif_neg (by omega), dif_pos ⟨key.n_gt, key.n_odd⟩]

variable {key} in
theorem ofPrimes_eq_ok {p q s : Nat} : ofPrimes p q s = .ok key ↔
    (p ≠ q ∧ p % 2 = 1 ∧ q % 2 = 1 ∧ isProbablePrime p = true ∧ isProbablePrime q = true) ∧
      key.n = p * q ∧ key.s = s := by
  simp only [ofPrimes, ite_eq_iff, ofModulus_eq_ok, Bool.and_eq_true, decide_eq_true_eq,
    reduceCtorEq, and_false, or_false, and_assoc]

variable {key} in
theorem requireLength_eq_ok {t : Soundness} :
    key.requireLength t = .ok () ↔ 3 * t.bits < bitLength key.n := by
  unfold requireLength Soundness.requireModulus
  split
  · rename_i hlen
    exact iff_of_true rfl hlen
  · rename_i hlen
    exact iff_of_false (by rintro ⟨⟩) hlen

/-! ## The ring of residues -/

/-- The residues modulo `N'`. -/
abbrev Ring : Type := ZMod key.ciphertextModulus

variable {key}

theorem isUnit_cast {a : Nat} : IsUnit (a : key.Ring) ↔ a.Coprime key.n := by
  rw [ZMod.isUnit_iff_coprime, coprime_ciphertextModulus]

/-- Each unit is a residue of a number that is coprime with `n`. -/
theorem exists_cast_eq (u : key.Ringˣ) : ∃ r : Nat, r.Coprime key.n ∧ (r : key.Ring) = u := by
  have : NeZero key.ciphertextModulus := ⟨key.ciphertextModulus_pos.ne'⟩
  have hcast : ((u.val.val : Nat) : key.Ring) = u := ZMod.natCast_zmod_val u.val
  refine ⟨u.val.val, isUnit_cast.mp ?_, hcast⟩
  rw [hcast]
  exact u.isUnit

/-- An `N`-th power modulo `N'` depends on its base modulo `n` only. -/
theorem pow_eq_of_modEq {a b : Nat} (h : a ≡ b [MOD key.n]) :
    (a : key.Ring) ^ key.plaintextModulus = (b : key.Ring) ^ key.plaintextModulus := by
  have hsub : ((key.n : Nat) : Int) ∣ b - a := Nat.modEq_iff_dvd.mp h
  have hpow := dvd_sub_pow_of_dvd_sub hsub key.s
  have hmod : a ^ key.plaintextModulus ≡ b ^ key.plaintextModulus [MOD key.ciphertextModulus] := by
    refine Nat.modEq_iff_dvd.mpr ?_
    rw [plaintextModulus_def, ciphertextModulus_def]
    exact_mod_cast hpow
  have hcast := (ZMod.natCast_eq_natCast_iff _ _ _).mpr hmod
  rwa [Nat.cast_pow, Nat.cast_pow] at hcast

/-- The base of the plaintexts has order `N`. -/
theorem generator_pow_plaintextModulus :
    ((key.n + 1 : Nat) : key.Ring) ^ key.plaintextModulus = 1 := by
  have h : key.n + 1 ≡ 1 [MOD key.n] := Nat.add_modEq_left
  rw [pow_eq_of_modEq h, Nat.cast_one, one_pow]

/-- Plaintexts count modulo `N`. -/
theorem generator_pow_mod (x : Nat) :
    ((key.n + 1 : Nat) : key.Ring) ^ (x % key.plaintextModulus) =
      ((key.n + 1 : Nat) : key.Ring) ^ x :=
  (pow_eq_pow_mod x generator_pow_plaintextModulus).symm

/-! ## Encryption -/

theorem cast_encrypt (x r : Nat) : ((key.encrypt x r : Nat) : key.Ring) =
    ((key.n + 1 : Nat) : key.Ring) ^ x * (r : key.Ring) ^ key.plaintextModulus := by
  rw [encrypt_def, ZMod.natCast_mod, Nat.cast_mul, cast_powMod, cast_powMod]

theorem encrypt_lt (x r : Nat) : key.encrypt x r < key.ciphertextModulus :=
  Nat.mod_lt _ key.ciphertextModulus_pos

variable (key) in
/-- The number `c` is an encryption of `x` with randomness `r`, as a residue modulo `N'`. -/
def Encrypts (c x r : Nat) : Prop := c % key.ciphertextModulus = key.encrypt x r

instance (c x r : Nat) : Decidable (key.Encrypts c x r) :=
  inferInstanceAs (Decidable (_ = _))

theorem encrypts_iff {c x r : Nat} : key.Encrypts c x r ↔
    (c : key.Ring) =
      ((key.n + 1 : Nat) : key.Ring) ^ x * (r : key.Ring) ^ key.plaintextModulus := by
  rw [← cast_encrypt, Encrypts, ZMod.natCast_eq_natCast_iff', Nat.mod_eq_of_lt (encrypt_lt x r)]

theorem encrypts_iff_modEq {c x r : Nat} : key.Encrypts c x r ↔
    c ≡ (1 + key.n) ^ x * r ^ key.plaintextModulus [MOD key.ciphertextModulus] := by
  rw [encrypts_iff, Nat.add_comm 1, ← ZMod.natCast_eq_natCast_iff, Nat.cast_mul, Nat.cast_pow,
    Nat.cast_pow]

/-- The randomness of a unit is a unit. -/
theorem Encrypts.coprime {c x r : Nat} (h : key.Encrypts c x r) (hc : c.Coprime key.n) :
    r.Coprime key.n := by
  have hunit : IsUnit (c : key.Ring) := isUnit_cast.mpr hc
  rw [encrypts_iff.mp h] at hunit
  have hr := isUnit_of_mul_isUnit_right hunit
  exact isUnit_cast.mp ((isUnit_pow_iff key.plaintextModulus_pos.ne').mp hr)

/-- An encryption with a unit is a unit. -/
theorem encrypt_coprime (x : Nat) {r : Nat} (hr : r.Coprime key.n) :
    (key.encrypt x r).Coprime key.n := by
  have hg : IsUnit ((key.n + 1 : Nat) : key.Ring) := isUnit_cast.mpr (by simp)
  rw [← isUnit_cast, cast_encrypt]
  exact (hg.pow x).mul ((isUnit_cast.mpr hr).pow _)

/-- The negated power of a unit is the inverse of the power. -/
theorem powNeg_eq_ok {c : Nat} (hc : c.Coprime key.n) (e : Nat) :
    ∃ d, key.powNeg c e = .ok d ∧ (d : key.Ring) * (c : key.Ring) ^ e = 1 := by
  obtain ⟨inverse, hsome, hinv⟩ :=
    exists_inverse key.ciphertextModulus_pos (key.coprime_ciphertextModulus.mpr hc)
  refine ⟨powMod inverse e key.ciphertextModulus, by rw [powNeg_def, hsome], ?_⟩
  rw [cast_powMod, ← mul_pow, mul_comm, cast_mul_inverse hinv, one_pow]

end SigmaProofs.DamgardJurik.Key
