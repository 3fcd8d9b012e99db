import SigmaProofs.ElGamal
import SigmaProofs.Proofs.CiphertextSoundness
import SigmaProofs.Proofs.DamgardJurik.Homomorphism

/-!
# Inputs that are true by construction

Those who encrypt or commit know the randomness, and those who receive know the private key. With
these as witnesses, the statements about ciphertexts and commitments are true, whatever the numbers
are.

* `Protocol.TrueInput`: a true statement with its witness, on which the protocol can be run.
* `ElGamal.Truthful`, `Pedersen.Truthful`, `DamgardJurik.Key.Truthful`: what is made of an element, a
  value or a plaintext is such an input.
* `SchnorrGroup.decrypt_encrypt`: decryption gives back every number below `p`, even one that is no
  member of the group.
* `SchnorrGroup.truthful_of_accepted`: all this in a group whose parameters are accepted.
-/

namespace SigmaProofs

variable {E : Type}

/-- A true statement with its witness. The protocol can be run on it, if the key of the statement is
long enough. -/
structure Protocol.TrueInput (P : Protocol E) (input : Witnessed E) : Prop where
  proves : P.Proves input.statement input.witness
  suits (hkey : ∀ key, input.statement.key? = some key →
    key.requireLength P.soundness = .ok ()) : P.Suits input.statement

/-! ## ElGamal encryption -/

namespace ElGamal

/-- The protocol for the element in a ciphertext. -/
abbrev valueProof (G : PrimeGroup E) (t : Soundness) : Protocol E :=
  .adapted (.elGamalValue G) (.leaf t (.dhTuple G))

/-- Both statements about an encryption of a member are true. Its randomness is a witness for them,
and so is the private key of the receiver for the second. -/
structure Truthful (G : PrimeGroup E) (t : Soundness) : Prop where
  committed (secret : SecretKey) (r : Nat) {m : E} (hm : G.isMember m = true) :
    (valueProof G t).TrueInput
      ⟨(Ciphertext.encrypt G m (.ofSecret G secret) r).committedStatement (.ofSecret G secret) m,
        .exponent r⟩
  randomness (secret : SecretKey) (r : Nat) {m : E} (hm : G.isMember m = true) :
    (valueProof G t).TrueInput
      ⟨(Ciphertext.encrypt G m (.ofSecret G secret) r).encryptedStatement (.ofSecret G secret) m
        .randomness, .exponent r⟩
  privateKey (secret : SecretKey) (r : Nat) {m : E} (hm : G.isMember m = true) :
    (valueProof G t).TrueInput
      ⟨(Ciphertext.encrypt G m (.ofSecret G secret) r).encryptedStatement (.ofSecret G secret) m
        .privateKey, secret.asWitness⟩
  /-- A fresh ciphertext comes with its randomness. -/
  fresh (m : E) (receiver : PublicKey E) : (Ciphertext.encryptFresh G m receiver).Always fun c =>
    c.2 < G.order ∧ c.1 = Ciphertext.encrypt G m receiver c.2

variable {G : PrimeGroup E} [G.Lawful]

/-- The element is masked by a power of the first component, too. -/
theorem encrypt_c2 (m : E) (secret : SecretKey) (r : Nat) :
    (Ciphertext.encrypt G m (.ofSecret G secret) r).c2 =
      G.mul m (G.pow (Ciphertext.encrypt G m (.ofSecret G secret) r).c1 secret.exponent) := by
  have hcomm := pow_right_comm (PrimeGroup.Member.generator G) secret.exponent r
  exact congrArg (G.mul m) (congrArg PrimeGroup.Member.val hcomm)

theorem encrypt_c2_mem (secret : SecretKey) (r : Nat) {m : E} (hm : G.isMember m = true) :
    G.isMember (Ciphertext.encrypt G m (.ofSecret G secret) r).c2 = true :=
  PrimeGroup.Lawful.mul_mem hm (PrimeGroup.Lawful.pow_mem r (PrimeGroup.powGenerator_mem _))

theorem truthful (G : PrimeGroup E) [G.Lawful] (t : Soundness) : Truthful G t where
  committed secret r m hm :=
    { proves := .adapted (.elGamalCommitted rfl rfl)
      suits _ := .elGamalCommitted (PrimeGroup.powGenerator_mem _) (PrimeGroup.powGenerator_mem r)
        (encrypt_c2_mem secret r hm) hm }
  randomness secret r m hm :=
    { proves := .adapted (.elGamalRandomness rfl rfl)
      suits _ := .elGamalEncrypted (PrimeGroup.powGenerator_mem _) (PrimeGroup.powGenerator_mem r)
        (encrypt_c2_mem secret r hm) hm }
  privateKey secret r m hm :=
    { proves := .adapted (.elGamalPrivateKey rfl (encrypt_c2 m secret r))
      suits _ := .elGamalEncrypted (PrimeGroup.powGenerator_mem _) (PrimeGroup.powGenerator_mem r)
        (encrypt_c2_mem secret r hm) hm }
  fresh m receiver := by
    intro r hr
    exact ⟨hr, rfl⟩

end ElGamal

/-! ## Pedersen commitments -/

namespace Pedersen

/-- The commitment to a value of any size, of which the remainder modulo the order is kept, and the
two inputs that are made of it. -/
structure Truthful (G : PrimeGroup E) (t : Soundness) : Prop where
  random {h : E} (hh : G.isMember h = true) (x : Nat) :
    (Commitment.random G h x).Always fun c =>
      (c.key = h ∧ c.value = x % G.order ∧
        c.commitment = G.mul (G.powGenerator c.randomness) (G.pow h x)) ∧
      Protocol.TrueInput (.leaf t (.opening G)) c.openingInput ∧
      Protocol.TrueInput (.adapted (.pedersenValue G) (.leaf t (.dlog G))) c.valueInput

variable {G : PrimeGroup E} [G.Lawful]

theorem commit_mod {h : E} (hh : G.isMember h = true) (x r : Nat) :
    commit G h (x % G.order) r = G.mul (G.powGenerator r) (G.pow h x) := by
  have hmod := PrimeGroup.Member.pow_mod_order ⟨h, hh⟩ x
  exact congrArg (G.mul _) (congrArg PrimeGroup.Member.val hmod)

theorem truthful (G : PrimeGroup E) [G.Lawful] (t : Soundness) : Truthful G t where
  random {h} hh x := by
    intro r _
    have hmem : G.isMember (commit G h (x % G.order) r) = true :=
      PrimeGroup.doublePow_mem PrimeGroup.Lawful.generator_mem hh r _
    refine ⟨⟨rfl, rfl, commit_mod hh x r⟩, ⟨?_, ?_⟩, ⟨?_, ?_⟩⟩
    · exact .leaf (.leaf (.opening rfl))
    · exact fun _ => .leaf (.opening hh hmem)
    · exact .adapted (.pedersenValue rfl)
    · exact fun _ => .pedersenValue hh hmem

end Pedersen

/-! ## Damgård–Jurik encryption -/

namespace DamgardJurik.Key

/-- The statements about encryptions with units are true. Plaintexts may be given by any numbers
that are equal to them modulo `N`. -/
structure Truthful (E : Type) (key : Key) (t : Soundness) : Prop where
  encrypts (x r : Nat) :
    key.encrypt x r = (1 + key.n) ^ x * r ^ (key.n ^ key.s) % key.n ^ (key.s + 1)
  zero {x r : Nat} (hr : r.Coprime key.n) (hx : x ≡ 0 [MOD key.n ^ key.s]) :
    (Protocol.djZero t : Protocol E).TrueInput ⟨.djZero key (key.encrypt x r), .djRandomness r⟩
  value {x x' r : Nat} (hr : r.Coprime key.n) (hx : x ≡ x' [MOD key.n ^ key.s]) :
    (Protocol.djValue t : Protocol E).TrueInput
      ⟨.djValue key (key.encrypt x r) x', .djRandomness r⟩
  product {x₁ x₁' x₂ x₃ r₁ r₂ r₃ : Nat} (hr₁ : r₁.Coprime key.n) (hr₂ : r₂.Coprime key.n)
    (hr₃ : r₃.Coprime key.n) (hx₁ : x₁ ≡ x₁' [MOD key.n ^ key.s])
    (hx₃ : x₃ ≡ x₁ * x₂ [MOD key.n ^ key.s]) :
    (Protocol.djProduct t : Protocol E).TrueInput
      ⟨.djProduct key (key.encrypt x₁ r₁) (key.encrypt x₂ r₂) (key.encrypt x₃ r₃),
        .djProduct x₁' r₁ r₂ r₃⟩
  /-- A fresh ciphertext comes with its randomness, which is a unit. -/
  fresh (x : Nat) : (key.encryptFresh x).Always fun c =>
    (0 < c.2 ∧ c.2 < key.n ∧ c.2.Coprime key.n) ∧ c.1 = key.encrypt x c.2

theorem truthful (E : Type) (key : Key) (t : Soundness) : key.Truthful E t where
  encrypts := encrypt_eq
  zero {x r} hr hx :=
    { proves := .leaf (.leaf (.encryptedZero (encrypts_encrypt hx)))
      suits hkey := .leaf (.encryptedZero (hkey key rfl) (encrypt_coprime x hr)) }
  value {x x' r} hr hx :=
    { proves := .adapted (.djValue (encrypts_encrypt hx))
      suits hkey := .djValue (hkey key rfl) (encrypt_coprime x hr) }
  product {x₁ x₁' x₂ x₃ r₁ r₂ r₃} hr₁ hr₂ hr₃ hx₁ hx₃ :=
    { proves := .leaf (.leaf (.product (encrypts_encrypt hx₁) (encrypts_encrypt rfl)
        (encrypts_encrypt (hx₃.trans (hx₁.mul_right x₂)))))
      suits hkey := .leaf (.product (hkey key rfl) (encrypt_coprime x₁ hr₁)
        (encrypt_coprime x₂ hr₂) (encrypt_coprime x₃ hr₃)) }
  fresh x := by
    intro r hr
    exact ⟨hr, rfl⟩

end DamgardJurik.Key

/-! ## Schnorr groups -/

namespace SchnorrGroup

open ElGamal

variable {S : SchnorrGroup}

/-- Decryption undoes encryption. The number that is encrypted need not be a member. -/
theorem decrypt_encrypt (hp : S.p.Prime) (hq : S.q.Prime) (h : S.hasPrimeOrder = true)
    (secret : SecretKey) (r : Nat) {m : Nat} (hm : m < S.p) :
    secret.decrypt S.toPrimeGroup
      (Ciphertext.encrypt S.toPrimeGroup m (.ofSecret S.toPrimeGroup secret) r) = m := by
  have := Fact.mk hp
  have := lawful hp hq h
  have hmask : S.isMember (S.pow (S.pow S.g r) secret.exponent) = true :=
    PrimeGroup.Lawful.pow_mem (G := S.toPrimeGroup) _ (PrimeGroup.powGenerator_mem r)
  rw [SecretKey.decrypt, encrypt_c2]
  exact mul_mul_inv hq.pos hmask hm

/-- In a group whose parameters are accepted, all that is constructed is true, for exponents, values
and plaintexts of any size. -/
theorem truthful_of_accepted {p q g : Nat} (h : ofParameters p q g = .ok S) (hp : p.Prime)
    (hq : q.Prime) (t : Soundness) :
    (∀ (secret : SecretKey) (r m : Nat), m < p → secret.decrypt S.toPrimeGroup
      (Ciphertext.encrypt S.toPrimeGroup m (.ofSecret S.toPrimeGroup secret) r) = m) ∧
    ElGamal.Truthful S.toPrimeGroup t ∧ Pedersen.Truthful S.toPrimeGroup t ∧
    ∀ key : DamgardJurik.Key, key.Truthful Nat t := by
  obtain ⟨rfl, hcheck⟩ := ofParameters_eq_ok.mp h
  have := lawful hp hq hcheck
  refine ⟨?_, ElGamal.truthful _ t, Pedersen.truthful _ t, ?_⟩
  · intro secret r m hm
    exact decrypt_encrypt hp hq hcheck secret r hm
  · intro key
    exact key.truthful Nat t

/-- In the small group, with an encryption of -1, which is no square, and exponents above the
order. -/
theorem truthful_of_accepted_small :
    ofParameters 2039 1019 4 = .ok small ∧ small.isMember 2038 = false ∧
      (⟨5000⟩ : SecretKey).decrypt small.toPrimeGroup
        (Ciphertext.encrypt small.toPrimeGroup 2038 (.ofSecret small.toPrimeGroup ⟨5000⟩) 7000) =
          2038 ∧
      ElGamal.Truthful small.toPrimeGroup Protocol.smallSoundness ∧
      Pedersen.Truthful small.toPrimeGroup Protocol.smallSoundness := by
  have h : ofParameters 2039 1019 4 = .ok small :=
    ofParameters_eq_ok.mpr ⟨rfl, small_hasPrimeOrder⟩
  obtain ⟨hdecrypt, helGamal, hpedersen, -⟩ :=
    truthful_of_accepted h (by norm_num) (by norm_num) Protocol.smallSoundness
  exact ⟨h, by decide +kernel, hdecrypt _ _ _ (by decide), helGamal, hpedersen⟩

end SchnorrGroup

end SigmaProofs
