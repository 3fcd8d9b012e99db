import SigmaProofs.Proofs.Leaf.Ciphertext

/-!
# Encryption is a homomorphism on residues

The product of two encryptions is an encryption of the sum of the plaintexts, and its randomness is
the product of the two. Plaintexts count modulo `N = n ^ s` and randomness modulo `n`, although all
is computed modulo `N' = n ^ (s + 1)`.

* `Key.encrypt_congr`, `Key.encrypt_mul`: the two properties, for plaintexts and randomness of any
  size. Nothing is assumed of the randomness, which need not be a unit.
* `Key.powMod_congr`: the randomness of a response may be reduced modulo `n` before it is raised to
  the power `N`.
* `Key.HomomorphicOnResidues`: all this together, with what it means for the responses of provers.
-/

namespace SigmaProofs.DamgardJurik.Key

variable {key : Key}

theorem encrypt_eq (x r : Nat) : key.encrypt x r =
    (1 + key.n) ^ x * r ^ key.plaintextModulus % key.ciphertextModulus := by
  rw [encrypt_def, powMod_eq, powMod_eq, ← Nat.mul_mod, Nat.add_comm 1]

/-- Plaintexts count modulo `N`, randomness modulo `n`. -/
theorem encrypt_congr {x x' r r' : Nat} (hx : x ≡ x' [MOD key.plaintextModulus])
    (hr : r ≡ r' [MOD key.n]) : key.encrypt x r = key.encrypt x' r' := by
  have hx' : x % key.plaintextModulus = x' % key.plaintextModulus := hx
  apply eq_of_cast (encrypt_lt x r) (encrypt_lt x' r')
  rw [cast_encrypt, cast_encrypt, pow_eq_of_modEq hr, ← generator_pow_mod x, hx',
    generator_pow_mod]

/-- An encryption is one of all plaintexts that are equal modulo `N`. -/
theorem encrypts_encrypt {x x' r : Nat} (hx : x ≡ x' [MOD key.plaintextModulus]) :
    key.Encrypts (key.encrypt x r) x' r := by
  rw [Encrypts, Nat.mod_eq_of_lt (encrypt_lt x r)]
  exact encrypt_congr hx rfl

theorem encrypt_mul (x x' r r' : Nat) :
    key.encrypt x r * key.encrypt x' r' % key.ciphertextModulus =
      key.encrypt (x + x') (r * r') := by
  apply eq_of_cast (Nat.mod_lt _ key.ciphertextModulus_pos) (encrypt_lt _ _)
  rw [ZMod.natCast_mod, Nat.cast_mul, cast_encrypt, cast_encrypt, cast_encrypt, Nat.cast_mul]
  ring

/-- An `N`-th power modulo `N'` is computed from the base modulo `n`. -/
theorem powMod_congr {a b : Nat} (h : a ≡ b [MOD key.n]) :
    powMod a key.plaintextModulus key.ciphertextModulus =
      powMod b key.plaintextModulus key.ciphertextModulus := by
  apply eq_of_cast (powMod_lt key.ciphertextModulus_pos) (powMod_lt key.ciphertextModulus_pos)
  rw [cast_powMod, cast_powMod, pow_eq_of_modEq h]

/-- Encryption as a map from residues modulo `N` and modulo `n` to residues modulo `N'`. A prover
reduces its response `z` to the challenge `e` modulo `n`, and the verifier computes with `z ^ N`
modulo `N'`, which is the power of the response before it was reduced. -/
structure HomomorphicOnResidues (key : Key) : Prop where
  encrypts (m r : Nat) :
    key.encrypt m r = (1 + key.n) ^ m * r ^ (key.n ^ key.s) % key.n ^ (key.s + 1)
  mul (m₁ m₂ r₁ r₂ : Nat) :
    key.encrypt m₁ r₁ * key.encrypt m₂ r₂ % key.n ^ (key.s + 1) =
      key.encrypt ((m₁ + m₂) % key.n ^ key.s) (r₁ * r₂ % key.n)
  congr {m m' r r' : Nat} (hm : m ≡ m' [MOD key.n ^ key.s]) (hr : r ≡ r' [MOD key.n]) :
    key.encrypt m r = key.encrypt m' r'
  zeroResponse (rho r e : Nat) :
    ∃ z < key.n, Pending.respond e (.encryptedZero key.n rho r) = .integer z ∧
      powMod z key.plaintextModulus key.ciphertextModulus =
        powMod (rho * r ^ e) key.plaintextModulus key.ciphertextModulus
  /-- The plaintext `z₁` is reduced modulo `N`. What is left of it is in `z₃`. -/
  productResponse (c₂ d rho rhoBar x₁ r₁ r e : Nat) :
    ∃ z₁ < key.plaintextModulus, ∃ z₂ < key.n, ∃ z₃ < key.n,
      Pending.respond e (.product key c₂ d rho rhoBar x₁ r₁ r) = .productResponse z₁ z₂ z₃ ∧
      powMod z₂ key.plaintextModulus key.ciphertextModulus =
        powMod (rho * r₁ ^ e) key.plaintextModulus key.ciphertextModulus ∧
      key.encrypt z₁ z₂ = key.encrypt (d + e * x₁) (rho * r₁ ^ e) ∧
      powMod z₃ key.plaintextModulus key.ciphertextModulus =
        powMod (rhoBar * r ^ e * c₂ ^ ((d + e * x₁) / key.plaintextModulus))
          key.plaintextModulus key.ciphertextModulus

theorem homomorphicOnResidues (key : Key) : key.HomomorphicOnResidues where
  encrypts := encrypt_eq
  mul m₁ m₂ r₁ r₂ := by
    have hm : m₁ + m₂ ≡ (m₁ + m₂) % key.plaintextModulus [MOD key.plaintextModulus] :=
      (Nat.mod_modEq _ _).symm
    have hr : r₁ * r₂ ≡ r₁ * r₂ % key.n [MOD key.n] := (Nat.mod_modEq _ _).symm
    exact (encrypt_mul m₁ m₂ r₁ r₂).trans (encrypt_congr hm hr)
  congr := encrypt_congr
  zeroResponse rho r e := by
    have hn := key.n_pos
    exact ⟨_, Nat.mod_lt _ hn, rfl, powMod_congr (mul_powMod_modEq rho r e key.n)⟩
  productResponse c₂ d rho rhoBar x₁ r₁ r e := by
    have hn := key.n_pos
    have h₁ : (d + e * x₁) % key.plaintextModulus ≡ d + e * x₁ [MOD key.plaintextModulus] :=
      Nat.mod_modEq _ _
    have h₂ := mul_powMod_modEq rho r₁ e key.n
    have h₃ := Product.response_modEq rhoBar r e c₂ ((d + e * x₁) / key.plaintextModulus) key.n
    refine ⟨_, Nat.mod_lt _ key.plaintextModulus_pos, _, Nat.mod_lt _ hn, _, Nat.mod_lt _ hn, rfl,
      ?_, ?_, ?_⟩
    · exact powMod_congr h₂
    · exact encrypt_congr h₁ h₂
    · exact powMod_congr h₃

end SigmaProofs.DamgardJurik.Key
