import Mathlib.Tactic.LinearCombination
import SigmaProofs.Leaf.Ciphertext
import SigmaProofs.Proofs.DamgardJurik
import SigmaProofs.Proofs.Steps

/-!
# Proofs about Damgård–Jurik ciphertexts, as equations between residues

The verifiers check that all values are units and that equations hold in `key.Ring`
(`EncryptedZero.accepts_iff`, `Product.accepts_iff`).

* `EncryptedZero.accepts_commit`, `Product.accepts_commit`: the messages of a prover with a witness
  are accepted. Responses are reduced modulo `n`, which their `N`-th powers do not see.
* `EncryptedZero.accepts_simulate`, `Product.accepts_simulate`: so are those of a simulator.
-/

namespace SigmaProofs

open DamgardJurik

variable {key : Key}

/-! ## Responses modulo `n` -/

theorem mul_powMod_modEq (a b e n : Nat) : a * powMod b e n % n ≡ a * b ^ e [MOD n] := by
  rw [powMod_eq]
  exact (Nat.mod_modEq _ n).trans ((Nat.mod_modEq (b ^ e) n).mul_left a)

namespace EncryptedZero

theorem accepts_iff {c e a z : Nat} : accepts key c e a z = true ↔
    c.Coprime key.n ∧ a.Coprime key.n ∧ z.Coprime key.n ∧
      (z : key.Ring) ^ key.plaintextModulus = a * (c : key.Ring) ^ e := by
  have heq : powMod z key.plaintextModulus key.ciphertextModulus =
      a * powMod c e key.ciphertextModulus % key.ciphertextModulus ↔
      (z : key.Ring) ^ key.plaintextModulus = a * (c : key.Ring) ^ e := by
    rw [← cast_powMod, ← cast_powMod, ← Nat.cast_mul, ZMod.natCast_eq_natCast_iff',
      Nat.mod_eq_of_lt (powMod_lt key.ciphertextModulus_pos)]
  simp only [accepts_def, Bool.and_eq_true, beq_iff_eq, isUnit_iff key.one_lt_n, heq, and_assoc]

theorem accepts_commit {c r rho : Nat} (hc : key.Encrypts c 0 r) (hu : c.Coprime key.n)
    (hrho : rho.Coprime key.n) (e : Nat) :
    accepts key c e (powMod rho key.plaintextModulus key.ciphertextModulus)
      (rho * powMod r e key.n % key.n) = true := by
  have hz := mul_powMod_modEq rho r e key.n
  have hr : r.Coprime key.n := hc.coprime hu
  refine accepts_iff.mpr ⟨hu, ?_, coprime_of_modEq hz (hrho.mul_left (hr.pow_left e)), ?_⟩
  · rw [← Key.isUnit_cast, cast_powMod]
    exact (Key.isUnit_cast.mpr hrho).pow _
  · have hceq := Key.encrypts_iff.mp hc
    rw [Key.pow_eq_of_modEq hz, cast_powMod, hceq, Nat.cast_mul, Nat.cast_pow]
    ring

theorem accepts_simulate {c z : Nat} (hc : c.Coprime key.n) (hz : z.Coprime key.n) (e : Nat) :
    ∃ a, simulate key c e z = .ok (.integer a) ∧ accepts key c e a z = true := by
  obtain ⟨inverse, hok, hinv⟩ := Key.powNeg_eq_ok hc e
  refine ⟨_, by rw [simulate_def, hok]; rfl, accepts_iff.mpr ⟨hc, ?_, hz, ?_⟩⟩
  · rw [← Key.isUnit_cast, ZMod.natCast_mod, Nat.cast_mul, cast_powMod]
    exact ((Key.isUnit_cast.mpr hz).pow _).mul (.of_mul_eq_one _ hinv)
  · rw [ZMod.natCast_mod, Nat.cast_mul, cast_powMod, mul_assoc, hinv, mul_one]

end EncryptedZero

namespace Product

theorem accepts_iff {c1 c2 c3 e a1 a2 z1 z2 z3 : Nat} :
    accepts key c1 c2 c3 e a1 a2 z1 z2 z3 = true ↔
      (∀ x ∈ [c1, c2, c3, a1, a2, z2, z3], x.Coprime key.n) ∧
      ((key.n + 1 : Nat) : key.Ring) ^ z1 * (z2 : key.Ring) ^ key.plaintextModulus =
        a1 * (c1 : key.Ring) ^ e ∧
      (c2 : key.Ring) ^ z1 * (z3 : key.Ring) ^ key.plaintextModulus =
        a2 * (c3 : key.Ring) ^ e := by
  have h₁ : key.encrypt z1 z2 =
      a1 * powMod c1 e key.ciphertextModulus % key.ciphertextModulus ↔
      ((key.n + 1 : Nat) : key.Ring) ^ z1 * (z2 : key.Ring) ^ key.plaintextModulus =
        a1 * (c1 : key.Ring) ^ e := by
    rw [← Key.cast_encrypt, ← cast_powMod, ← Nat.cast_mul, ZMod.natCast_eq_natCast_iff',
      Nat.mod_eq_of_lt (Key.encrypt_lt z1 z2)]
  have h₂ : powMod c2 z1 key.ciphertextModulus *
        powMod z3 key.plaintextModulus key.ciphertextModulus % key.ciphertextModulus =
      a2 * powMod c3 e key.ciphertextModulus % key.ciphertextModulus ↔
      (c2 : key.Ring) ^ z1 * (z3 : key.Ring) ^ key.plaintextModulus =
        a2 * (c3 : key.Ring) ^ e := by
    rw [← cast_powMod, ← cast_powMod, ← cast_powMod, ← Nat.cast_mul, ← Nat.cast_mul,
      ZMod.natCast_eq_natCast_iff']
  simp only [accepts_def, Bool.and_eq_true, beq_iff_eq, List.all_eq_true, isUnit_iff key.one_lt_n,
    h₁, h₂, and_assoc]

/-- The quotient of the randomness of `c3` and of `c2 ^ x1`. -/
theorem quotientRandomness_eq_ok {n r2 : Nat} (hn : 0 < n) (hr2 : r2.Coprime n) (x1 r3 : Nat) :
    ∃ r, quotientRandomness n x1 r2 r3 = .ok r ∧ r * r2 ^ x1 ≡ r3 [MOD n] := by
  obtain ⟨inverse, hsome, hinv⟩ := exists_inverse hn hr2
  refine ⟨r3 * powMod inverse x1 n % n, by rw [quotientRandomness_def, hsome], ?_⟩
  calc r3 * powMod inverse x1 n % n * r2 ^ x1
      ≡ r3 * inverse ^ x1 * r2 ^ x1 [MOD n] := (mul_powMod_modEq r3 inverse x1 n).mul_right _
    _ = r3 * (r2 * inverse) ^ x1 := by rw [Nat.mul_assoc, ← Nat.mul_pow, Nat.mul_comm inverse]
    _ ≡ r3 * 1 ^ x1 [MOD n] := (Nat.ModEq.pow x1 hinv).mul_left r3
    _ = r3 := by rw [Nat.one_pow, Nat.mul_one]

theorem quotient_coprime {n x1 r r2 r3 : Nat} (h : r * r2 ^ x1 ≡ r3 [MOD n])
    (h3 : r3.Coprime n) : r.Coprime n :=
  Nat.Coprime.coprime_mul_right (coprime_of_modEq h h3)

/-- The randomness in a response, with a power of `c2` for what the plaintext exceeds `N` by. -/
theorem response_modEq (rhoBar r e c2 k n : Nat) :
    rhoBar * powMod r e n * powMod (c2 % n) k n % n ≡ rhoBar * r ^ e * c2 ^ k [MOD n] := by
  refine (mul_powMod_modEq _ _ _ _).trans (Nat.ModEq.mul ?_ ((Nat.mod_modEq c2 _).pow _))
  rw [powMod_eq]
  exact (Nat.mod_modEq _ _).mul_left _

/-- A ciphertext of the product is `c2 ^ x1` times the `N`-th power of the quotient. -/
theorem product_eq {c2 c3 x1 x2 r r2 r3 : Nat} (h2 : key.Encrypts c2 x2 r2)
    (h3 : key.Encrypts c3 (x1 * x2) r3) (hr : r * r2 ^ x1 ≡ r3 [MOD key.n]) :
    (c3 : key.Ring) = (c2 : key.Ring) ^ x1 * (r : key.Ring) ^ key.plaintextModulus := by
  rw [Key.encrypts_iff.mp h3, Key.encrypts_iff.mp h2, ← Key.pow_eq_of_modEq hr, Nat.cast_mul,
    Nat.cast_pow]
  ring

theorem accepts_commit {c1 c2 c3 x1 x2 r1 r2 r3 r d rho rhoBar : Nat}
    (h1 : key.Encrypts c1 x1 r1) (h2 : key.Encrypts c2 x2 r2)
    (h3 : key.Encrypts c3 (x1 * x2) r3) (hc1 : c1.Coprime key.n) (hc2 : c2.Coprime key.n)
    (hc3 : c3.Coprime key.n) (hr : r * r2 ^ x1 ≡ r3 [MOD key.n]) (hrho : rho.Coprime key.n)
    (hrhoBar : rhoBar.Coprime key.n) (e : Nat) :
    accepts key c1 c2 c3 e (key.encrypt d rho)
      (powMod c2 d key.ciphertextModulus *
        powMod rhoBar key.plaintextModulus key.ciphertextModulus % key.ciphertextModulus)
      ((d + e * x1) % key.plaintextModulus) (rho * powMod r1 e key.n % key.n)
      (rhoBar * powMod r e key.n *
        powMod (c2 % key.n) ((d + e * x1) / key.plaintextModulus) key.n % key.n) = true := by
  have hz2 := mul_powMod_modEq rho r1 e key.n
  have hz3 := response_modEq rhoBar r e c2 ((d + e * x1) / key.plaintextModulus) key.n
  have hr' : r.Coprime key.n := quotient_coprime hr (h3.coprime hc3)
  have hr1 : r1.Coprime key.n := h1.coprime hc1
  have hdiv : d + e * x1 = (d + e * x1) % key.plaintextModulus +
      key.plaintextModulus * ((d + e * x1) / key.plaintextModulus) := (Nat.mod_add_div _ _).symm
  refine accepts_iff.mpr ⟨?_, ?_, ?_⟩
  · simp only [List.forall_mem_cons, List.not_mem_nil, false_imp_iff, implies_true, and_true]
    refine ⟨hc1, hc2, hc3, Key.encrypt_coprime d hrho, ?_, ?_, ?_⟩
    · rw [← Key.isUnit_cast, ZMod.natCast_mod, Nat.cast_mul, cast_powMod, cast_powMod]
      exact ((Key.isUnit_cast.mpr hc2).pow _).mul ((Key.isUnit_cast.mpr hrhoBar).pow _)
    · exact coprime_of_modEq hz2 (hrho.mul_left (hr1.pow_left e))
    · exact coprime_of_modEq hz3 ((hrhoBar.mul_left (hr'.pow_left e)).mul_left (hc2.pow_left _))
  · rw [Key.generator_pow_mod, Key.pow_eq_of_modEq hz2, Key.cast_encrypt, Key.encrypts_iff.mp h1,
      Nat.cast_mul, Nat.cast_pow]
    ring
  · -- the quotient of the division of the exponent moves from `c2` to the randomness
    have hpow : (c2 : key.Ring) ^ ((d + e * x1) % key.plaintextModulus) *
        ((c2 : key.Ring) ^ ((d + e * x1) / key.plaintextModulus)) ^ key.plaintextModulus =
        (c2 : key.Ring) ^ (d + e * x1) := by
      rw [← pow_mul, Nat.mul_comm (_ / _), ← pow_add, ← hdiv]
    rw [Key.pow_eq_of_modEq hz3, ZMod.natCast_mod, Nat.cast_mul, Nat.cast_mul, Nat.cast_mul,
      Nat.cast_pow, Nat.cast_pow, cast_powMod, cast_powMod, product_eq h2 h3 hr]
    linear_combination ((rhoBar : key.Ring) * (r : key.Ring) ^ e) ^ key.plaintextModulus * hpow

theorem accepts_simulate {c1 c2 c3 z2 z3 : Nat} (hc1 : c1.Coprime key.n)
    (hc2 : c2.Coprime key.n) (hc3 : c3.Coprime key.n) (hz2 : z2.Coprime key.n)
    (hz3 : z3.Coprime key.n) (e z1 : Nat) :
    ∃ a1 a2, simulate key c1 c2 c3 e z1 z2 z3 = .ok (.productCommitment a1 a2) ∧
      accepts key c1 c2 c3 e a1 a2 z1 z2 z3 = true := by
  obtain ⟨inverse1, hok1, hinv1⟩ := Key.powNeg_eq_ok hc1 e
  obtain ⟨inverse3, hok3, hinv3⟩ := Key.powNeg_eq_ok hc3 e
  refine ⟨_, _, by rw [simulate_def, hok1, hok3]; rfl, accepts_iff.mpr ⟨?_, ?_, ?_⟩⟩
  · simp only [List.forall_mem_cons, List.not_mem_nil, false_imp_iff, implies_true, and_true]
    refine ⟨hc1, hc2, hc3, ?_, ?_, hz2, hz3⟩
    · rw [← Key.isUnit_cast, ZMod.natCast_mod, Nat.cast_mul]
      exact (Key.isUnit_cast.mpr (Key.encrypt_coprime z1 hz2)).mul (.of_mul_eq_one _ hinv1)
    · rw [← Key.isUnit_cast, ZMod.natCast_mod, Nat.cast_mul, Nat.cast_mul, cast_powMod,
        cast_powMod]
      exact (((Key.isUnit_cast.mpr hc2).pow _).mul ((Key.isUnit_cast.mpr hz3).pow _)).mul
        (.of_mul_eq_one _ hinv3)
  · rw [ZMod.natCast_mod, Nat.cast_mul, Key.cast_encrypt, mul_assoc _ (inverse1 : key.Ring),
      hinv1, mul_one]
  · rw [ZMod.natCast_mod, Nat.cast_mul, Nat.cast_mul, cast_powMod, cast_powMod,
      mul_assoc _ (inverse3 : key.Ring), hinv3, mul_one]

end Product

end SigmaProofs
