import Mathlib.RingTheory.Coprime.Lemmas
import SigmaProofs.Proofs.Conversion
import SigmaProofs.Proofs.Leaf.Runs
import SigmaProofs.Proofs.Runs

/-!
# Openings of ciphertexts from two accepted runs

The units modulo `N'` are a group of unknown order, in which a power cannot be undone by an inverse
of its exponent. But if the difference of two challenges is coprime with `n`, it has a combination
with `N` that is 1, and so a ciphertext is a product of its powers with that difference, which two
responses give, and with `N`, which is a root (`eq_mul_pow_of_bezout`).

* `Key.exists_root`: two equations with one commitment give the plaintext and the randomness. The
  plaintext depends on the responses and the challenges only, so it is the same in both equations
  for a product.
* `Statement.HasOpening`: the ciphertexts have plaintexts and randomness as the statement says.
* `Protocol.hasOpening_of_accepts`: this follows from two accepted runs.
-/

namespace SigmaProofs

/-! ## Roots in a group of unknown order -/

section Group

variable {H : Type} [CommGroup H]

/-- Two equations with one commitment, divided by each other. -/
theorem zpow_sub_eq {a b c x x' : H} {z z' e e' N : Nat} (h : b ^ z * x ^ N = a * c ^ e)
    (h' : b ^ z' * x' ^ N = a * c ^ e') :
    c ^ ((e : Int) - e') = b ^ ((z : Int) - z') * (x * x'⁻¹) ^ N := by
  have hsum : c ^ e * (b ^ z' * x' ^ N) = c ^ e' * (b ^ z * x ^ N) := by
    rw [h, h', mul_left_comm, mul_left_comm (c ^ e'), mul_comm (c ^ e)]
  rw [zpow_sub, zpow_sub, zpow_natCast, zpow_natCast, zpow_natCast, zpow_natCast, mul_pow, inv_pow,
    mul_mul_mul_comm, ← mul_inv, ← div_eq_mul_inv, ← div_eq_mul_inv, div_eq_div_iff_mul_eq_mul,
    hsum, mul_comm]

/-- Two equations with one commitment give a product of powers, by a combination of the difference
of the challenges and the exponent of the roots. -/
theorem eq_mul_pow_of_bezout {a b c x x' : H} {z z' e e' N : Nat} {α β : Int}
    (hbezout : α * ((e : Int) - e') + β * N = 1) (h : b ^ z * x ^ N = a * c ^ e)
    (h' : b ^ z' * x' ^ N = a * c ^ e') :
    c = b ^ (α * ((z : Int) - z')) * ((x * x'⁻¹) ^ α * c ^ β) ^ N := by
  have hcomm : ((x * x'⁻¹) ^ N) ^ α = ((x * x'⁻¹) ^ α) ^ N := by
    rw [← zpow_natCast, ← zpow_natCast, zpow_comm]
  calc c = c ^ (α * ((e : Int) - e') + β * N) := by rw [hbezout, zpow_one]
    _ = (c ^ ((e : Int) - e')) ^ α * (c ^ β) ^ N := by
      rw [zpow_add, mul_comm α, zpow_mul, zpow_mul, zpow_natCast]
    _ = (b ^ ((z : Int) - z')) ^ α * ((x * x'⁻¹) ^ N) ^ α * (c ^ β) ^ N := by
      rw [zpow_sub_eq h h', mul_zpow]
    _ = b ^ (α * ((z : Int) - z')) * ((x * x'⁻¹) ^ α * c ^ β) ^ N := by
      rw [hcomm, ← zpow_mul, mul_comm _ α, mul_pow, mul_assoc]

/-- An exponent is reduced modulo `N`, up to an `N`-th power. -/
theorem zpow_eq_pow_toNat (b : H) (k : Int) {N : Nat} (hN : 0 < N) :
    b ^ k = b ^ (k % N).toNat * (b ^ (k / N)) ^ N := by
  have hnonneg : 0 ≤ k % N := Int.emod_nonneg k (by omega)
  rw [← zpow_natCast b, Int.toNat_of_nonneg hnonneg, ← zpow_natCast, ← zpow_mul, ← zpow_add,
    mul_comm (k / N), Int.emod_add_mul_ediv]

end Group

/-! ## Ciphertexts -/

open DamgardJurik

variable {key : Key}

/-- Two equations with one commitment give the exponent of the base `b`, which depends on the
responses and the challenges only, and a root. -/
theorem DamgardJurik.Key.exists_root {a b c x x' z z' e e' : Nat} {α β : Int}
    (hbezout : α * ((e : Int) - e') + β * key.plaintextModulus = 1)
    (ha : a.Coprime key.n) (hb : b.Coprime key.n) (hc : c.Coprime key.n) (hx : x.Coprime key.n)
    (hx' : x'.Coprime key.n)
    (h : (b : key.Ring) ^ z * (x : key.Ring) ^ key.plaintextModulus = a * (c : key.Ring) ^ e)
    (h' : (b : key.Ring) ^ z' * (x' : key.Ring) ^ key.plaintextModulus =
      a * (c : key.Ring) ^ e') :
    ∃ r : Nat, r.Coprime key.n ∧ (c : key.Ring) =
      (b : key.Ring) ^ (α * ((z : Int) - z') % key.plaintextModulus).toNat *
        (r : key.Ring) ^ key.plaintextModulus := by
  -- between units, where exponents may be negative
  obtain ⟨A, hA⟩ := Key.isUnit_cast.mpr ha
  obtain ⟨B, hB⟩ := Key.isUnit_cast.mpr hb
  obtain ⟨C, hC⟩ := Key.isUnit_cast.mpr hc
  obtain ⟨X, hX⟩ := Key.isUnit_cast.mpr hx
  obtain ⟨X', hX'⟩ := Key.isUnit_cast.mpr hx'
  have hg : B ^ z * X ^ key.plaintextModulus = A * C ^ e := by
    refine Units.ext ?_
    push_cast
    rw [hA, hB, hC, hX, h]
  have hg' : B ^ z' * X' ^ key.plaintextModulus = A * C ^ e' := by
    refine Units.ext ?_
    push_cast
    rw [hA, hB, hC, hX', h']
  have hroot := eq_mul_pow_of_bezout hbezout hg hg'
  rw [zpow_eq_pow_toNat B _ key.plaintextModulus_pos, mul_assoc, ← mul_pow] at hroot
  obtain ⟨r, hr, hcast⟩ := Key.exists_cast_eq
    (B ^ (α * ((z : Int) - z') / key.plaintextModulus) * ((X * X'⁻¹) ^ α * C ^ β))
  refine ⟨r, hr, ?_⟩
  rw [hcast, ← hB, ← hC]
  exact_mod_cast congrArg Units.val hroot

/-- If a difference is coprime with `n`, it has a combination with `N` that is 1. -/
theorem DamgardJurik.Key.exists_bezout {d : Int} (hd : IsCoprime d key.n) :
    ∃ α β : Int, α * d + β * key.plaintextModulus = 1 := by
  have hpow : IsCoprime d ((key.n : Int) ^ key.s) := hd.pow_right
  obtain ⟨α, β, h⟩ := hpow
  exact ⟨α, β, by rw [Key.plaintextModulus_def, Nat.cast_pow]; exact h⟩

/-- Two accepted responses give the randomness of a ciphertext that encrypts zero. -/
theorem EncryptedZero.exists_randomness {c e e' a z z' : Nat}
    (he : IsCoprime ((e : Int) - e') key.n) (h : accepts key c e a z = true)
    (h' : accepts key c e' a z' = true) : ∃ r : Nat, r.Coprime key.n ∧ key.Encrypts c 0 r := by
  obtain ⟨α, β, hbezout⟩ := Key.exists_bezout he
  obtain ⟨hc, ha, hz, heq⟩ := accepts_iff.mp h
  obtain ⟨-, -, hz', heq'⟩ := accepts_iff.mp h'
  -- there is no plaintext, so the base is 1
  have hone : ((1 : Nat) : key.Ring) ^ 0 = 1 := pow_zero _
  obtain ⟨r, hr, hroot⟩ := Key.exists_root hbezout ha (Nat.coprime_one_left key.n) hc hz hz'
    (by rw [hone, one_mul, heq]) (by rw [hone, one_mul, heq'])
  refine ⟨r, hr, Key.encrypts_iff.mpr ?_⟩
  rw [hroot, Nat.cast_one, one_pow, pow_zero]

/-- Two accepted responses give the plaintext of `c1` and the randomness of `c1` and of `c3`, as a
multiple of `c2`. -/
theorem Product.exists_plaintext {c1 c2 c3 e e' a1 a2 z1 z2 z3 z1' z2' z3' : Nat}
    (he : IsCoprime ((e : Int) - e') key.n)
    (h : accepts key c1 c2 c3 e a1 a2 z1 z2 z3 = true)
    (h' : accepts key c1 c2 c3 e' a1 a2 z1' z2' z3' = true) :
    ∃ x1 r1 r : Nat, r1.Coprime key.n ∧ r.Coprime key.n ∧ key.Encrypts c1 x1 r1 ∧
      (c3 : key.Ring) = (c2 : key.Ring) ^ x1 * (r : key.Ring) ^ key.plaintextModulus := by
  obtain ⟨α, β, hbezout⟩ := Key.exists_bezout he
  obtain ⟨hunits, heq1, heq2⟩ := accepts_iff.mp h
  obtain ⟨hunits', heq1', heq2'⟩ := accepts_iff.mp h'
  simp only [List.forall_mem_cons] at hunits hunits'
  obtain ⟨hc1, hc2, hc3, ha1, ha2, hz2, hz3, -⟩ := hunits
  obtain ⟨-, -, -, -, -, hz2', hz3', -⟩ := hunits'
  -- both equations have the responses `z1` and `z1'`, and so the same exponent
  have hg : (key.n + 1).Coprime key.n := by simp
  obtain ⟨r1, hr1, hroot1⟩ := Key.exists_root hbezout ha1 hg hc1 hz2 hz2' heq1 heq1'
  obtain ⟨r, hr, hroot2⟩ := Key.exists_root hbezout ha2 hc2 hc3 hz3 hz3' heq2 heq2'
  exact ⟨_, r1, r, hr1, hr, Key.encrypts_iff.mpr hroot1, hroot2⟩

/-- A power of an encryption of `x2`, with more randomness, encrypts the product. -/
theorem Product.encrypts_of_eq {c2 c3 x1 x2 r r2 : Nat} (h2 : key.Encrypts c2 x2 r2)
    (h : (c3 : key.Ring) = (c2 : key.Ring) ^ x1 * (r : key.Ring) ^ key.plaintextModulus) :
    key.Encrypts c3 (x1 * x2 % key.plaintextModulus) (r2 ^ x1 * r) := by
  rw [Key.encrypts_iff, Key.generator_pow_mod, h, Key.encrypts_iff.mp h2, Nat.cast_mul,
    Nat.cast_pow]
  ring

/-! ## Protocols -/

variable {E : Type}

namespace Statement

/-- The key of the ciphertexts that the statement is about. -/
def key? : Statement E → Option Key
  | djZero key _ | djValue key _ _ | djProduct key _ _ _ => some key
  | _ => none

/-- The ciphertexts have plaintexts and randomness as the statement says. For a product, `c1` has a
plaintext `x1`, and `c3` is the power of `c2` with exponent `x1` but for its randomness. -/
def HasOpening : Statement E → Prop
  | djZero key c => ∃ r : Nat, r.Coprime key.n ∧
      c ≡ r ^ key.plaintextModulus [MOD key.ciphertextModulus]
  | djValue key c x => ∃ r : Nat, r.Coprime key.n ∧
      c ≡ (1 + key.n) ^ x * r ^ key.plaintextModulus [MOD key.ciphertextModulus]
  | djProduct key c1 c2 c3 => ∃ x1 r1 r : Nat, r1.Coprime key.n ∧ r.Coprime key.n ∧
      c1 ≡ (1 + key.n) ^ x1 * r1 ^ key.plaintextModulus [MOD key.ciphertextModulus] ∧
      c3 ≡ c2 ^ x1 * r ^ key.plaintextModulus [MOD key.ciphertextModulus] ∧
      ∀ x2 r2, key.Encrypts c2 x2 r2 → ∃ r3 : Nat, r3.Coprime key.n ∧
        key.Encrypts c3 (x1 * x2 % key.plaintextModulus) r3
  | _ => False

theorem hasOpening_djZero {key : Key} {c : Nat} : (djZero key c : Statement E).HasOpening ↔
    ∃ r : Nat, r.Coprime key.n ∧ key.Encrypts c 0 r := by
  simp only [HasOpening, Key.encrypts_iff_modEq, Nat.pow_zero, Nat.one_mul]

theorem hasOpening_djValue {key : Key} {c x : Nat} :
    (djValue key c x : Statement E).HasOpening ↔
      ∃ r : Nat, r.Coprime key.n ∧ key.Encrypts c x r := by
  simp only [HasOpening, Key.encrypts_iff_modEq]

end Statement

namespace Protocol

/-- The protocols that prove statements about ciphertexts. -/
def ciphertextProofs (t : Soundness) : List (Protocol E) := [djZero t, djValue t, djProduct t]

variable [DecidableEq E] {t : Soundness} {s : Statement E} {run run' : Conversation}

section TwoRuns

variable (hkey : s.key? = some key)
  (he : IsCoprime ((challengeNumber run.challenge : Int) - challengeNumber run'.challenge) key.n)
  (hfirst : run.first = run'.first)

include hkey he hfirst

theorem hasOpening_of_djZero (h : (djZero t).Accepts s run) (h' : (djZero t).Accepts s run') :
    s.HasOpening := by
  obtain ⟨key₁, c, a, z, rfl, ha, -, -, hacc⟩ := Leaf.verify_encryptedZero.mp h.verdict_eq
  obtain ⟨key₂, c', a', z', hs, ha', -, -, hacc'⟩ := Leaf.verify_encryptedZero.mp h'.verdict_eq
  obtain ⟨rfl, rfl⟩ := Statement.djZero.inj hs
  obtain rfl := Option.some.inj hkey
  obtain rfl := Message.integer.inj (ha.symm.trans (hfirst.trans ha'))
  exact Statement.hasOpening_djZero.mpr (EncryptedZero.exists_randomness he hacc hacc')

theorem hasOpening_of_djValue (h : (djValue t).Accepts s run) (h' : (djValue t).Accepts s run') :
    s.HasOpening := by
  obtain ⟨s₁, hs₁, hacc⟩ := accepts_adapted_iff.mp h
  obtain ⟨s₂, hs₂, hacc'⟩ := accepts_adapted_iff.mp h'
  obtain rfl : s₁ = s₂ := Except.ok.inj (hs₁.symm.trans hs₂)
  cases s with
  | djValue key₁ c x =>
    obtain rfl := Option.some.inj hkey
    obtain rfl := Except.ok.inj hs₁
    obtain ⟨r, hr, henc⟩ :=
      Statement.hasOpening_djZero.mp (hasOpening_of_djZero rfl he hfirst hacc hacc')
    exact Statement.hasOpening_djValue.mpr
      ⟨r, hr, (Conversion.unmask_iff key₁ c x r).mpr henc⟩
  | _ => cases hs₁

theorem hasOpening_of_djProduct (h : (djProduct t).Accepts s run)
    (h' : (djProduct t).Accepts s run') : s.HasOpening := by
  obtain ⟨key₁, c1, c2, c3, a1, a2, z1, z2, z3, rfl, ha, -, -, hacc⟩ :=
    Leaf.verify_product.mp h.verdict_eq
  obtain ⟨key₂, _, _, _, a1', a2', z1', z2', z3', hs, ha', -, -, hacc'⟩ :=
    Leaf.verify_product.mp h'.verdict_eq
  obtain ⟨rfl, rfl, rfl, rfl⟩ := Statement.djProduct.inj hs
  obtain rfl := Option.some.inj hkey
  obtain ⟨rfl, rfl⟩ := Message.productCommitment.inj (ha.symm.trans (hfirst.trans ha'))
  obtain ⟨x1, r1, r, hr1, hr, h1, h3⟩ := Product.exists_plaintext he hacc hacc'
  have hc2 : c2.Coprime key₁.n := (Product.accepts_iff.mp hacc).1 c2 (by simp)
  refine ⟨x1, r1, r, hr1, hr, Key.encrypts_iff_modEq.mp h1, ?_, fun x2 r2 h2 =>
    ⟨_, ((h2.coprime hc2).pow_left x1).mul_left hr, Product.encrypts_of_eq h2 h3⟩⟩
  rw [← ZMod.natCast_eq_natCast_iff, Nat.cast_mul, Nat.cast_pow, Nat.cast_pow]
  exact h3

/-- Two accepted runs with one first message, of which the challenges have a difference that is
coprime with `n`, show how the ciphertexts open. -/
theorem hasOpening_of_accepts {P : Protocol E} (hP : P ∈ ciphertextProofs t)
    (h : P.Accepts s run) (h' : P.Accepts s run') : s.HasOpening := by
  simp only [ciphertextProofs, List.mem_cons, List.not_mem_nil, or_false] at hP
  obtain rfl | rfl | rfl := hP
  · exact hasOpening_of_djZero hkey he hfirst h h'
  · exact hasOpening_of_djValue hkey he hfirst h h'
  · exact hasOpening_of_djProduct hkey he hfirst h h'

end TwoRuns

/-- Verifiers of the protocols for ciphertexts that accept one first message under two challenges
show how the ciphertexts open, if the difference of the challenges is coprime with `n`. -/
theorem opening_of_two_challenges {P : Protocol E} (hP : P ∈ ciphertextProofs t)
    {v v' : Verifier E} (hv : v.protocol = P) (hv' : v'.protocol = P) (hkey : s.key? = some key)
    {first z z' : Message} {e e' : Bytes}
    (he : IsCoprime ((challengeNumber e : Int) - challengeNumber e') key.n)
    (h : v.Accepts e s first z) (h' : v'.Accepts e' s first z') : s.HasOpening := by
  have hrun : P.Accepts s ⟨first, e, z⟩ := (verifier_accepts_iff hv).mp h
  have hrun' : P.Accepts s ⟨first, e', z'⟩ := (verifier_accepts_iff hv').mp h'
  refine hasOpening_of_accepts hkey ?_ ?_ hP hrun hrun'
  · exact he
  · rfl

/-! ### A small product -/

/-- A key with primes of 13 bits. -/
def smallKey : Key := ⟨4099 * 4111, 1, by decide, by decide, by decide, by decide⟩

/-- Encryptions of 3, 5 and 15 with randomness 1. -/
def smallProduct : Statement Nat :=
  .djProduct smallKey (smallKey.encrypt 3 1) (smallKey.encrypt 5 1) (smallKey.encrypt 15 1)

/-- The commitments are encryptions with randomness 1 too. -/
theorem smallProduct_accepts {e : UInt8} {z : Nat}
    (h : Product.accepts smallKey (smallKey.encrypt 3 1) (smallKey.encrypt 5 1)
      (smallKey.encrypt 15 1) (challengeNumber [e]) 1 1 z 1 1 = true) :
    (Verifier.ofProtocol (djProduct smallSoundness)).Accepts [e] smallProduct
      (.productCommitment 1 1) (.productResponse z 1 1) :=
  (verifier_accepts_iff (Verifier.protocol_ofProtocol _)).mpr ⟨rfl,
    Leaf.verify_product.mpr ⟨_, _, _, _, _, _, _, _, _, rfl, rfl, rfl, by decide, h⟩⟩

theorem opening_of_two_challenges_small : smallProduct.HasOpening :=
  opening_of_two_challenges (t := smallSoundness) (by simp [ciphertextProofs])
    (Verifier.protocol_ofProtocol _) (Verifier.protocol_ofProtocol _) rfl ⟨-1, 0, by decide⟩
    (smallProduct_accepts (e := 0) (z := 0) (by decide +kernel))
    (smallProduct_accepts (e := 1) (z := 3) (by decide +kernel))

end Protocol

end SigmaProofs
