import Mathlib.GroupTheory.Perm.Cycle.Type
import Mathlib.FieldTheory.Finite.Basic
import Mathlib.Tactic.TFAE
import SigmaProofs.Proofs.Challenge
import SigmaProofs.Proofs.CiphertextSoundness

/-!
# When the protocols for ciphertexts are sound

Two accepted runs show how a ciphertext opens only if the difference of their challenges is coprime
with `n`. A modulus that is long enough need not have this property for all challenges: it may have
a small prime factor `r`. Then some ciphertexts that do not encrypt zero have an `r`-th power that
does (`Key.exists_no_root`), and are accepted under each challenge that is a multiple of `r`.

* `Cheater.successRate`: the probability with which a verifier accepts a prover that may do whatever
  it wants.
* `Protocol.Extracts`, `Protocol.ErrorBounded`: two accepted runs show how ciphertexts open; no
  prover does better than guess the challenge.
* `Protocol.sound_tfae`: both hold if and only if all prime factors of `n` exceed `2 ^ t`.
-/

namespace SigmaProofs

open DamgardJurik

/-! ## Elements that are no powers -/

/-- In a finite abelian group whose order has a prime factor in common with `N`, an element is no
`N`-th power, but its power with that prime is one. -/
theorem exists_pow_eq_pow {H : Type} [CommGroup H] [Finite H] {r N : Nat} (hr : r.Prime)
    (hN : r ∣ N) (hH : r ∣ Nat.card H) : ∃ c u : H, c ^ r = u ^ N ∧ ∀ y : H, c ≠ y ^ N := by
  have := Fact.mk hr
  let f : H →* H := powMonoidHom N
  -- an element of order `r` lies in the kernel, so the quotient by the powers has such an element
  have hker : r ∣ Nat.card f.ker := by
    obtain ⟨x, hx⟩ := exists_prime_orderOf_dvd_card' r hH
    have hmem : x ∈ f.ker := orderOf_dvd_iff_pow_eq_one.mp (hx ▸ hN)
    exact hx ▸ Subgroup.orderOf_dvd_natCard f.ker hmem
  have hindex : f.range.index = Nat.card f.ker := by
    have hmul := (f.range.card_mul_index).trans (f.ker.card_mul_index).symm
    rw [Subgroup.index_ker, mul_comm] at hmul
    exact Nat.eq_of_mul_eq_mul_right Nat.card_pos hmul
  have hquotient : r ∣ Nat.card (H ⧸ f.range) := by
    rw [← Subgroup.index_eq_card, hindex]
    exact hker
  -- that element is the class of `c`
  obtain ⟨q, hq⟩ := exists_prime_orderOf_dvd_card' r hquotient
  obtain ⟨c, rfl⟩ := QuotientGroup.mk_surjective q
  have hpow : c ^ r ∈ f.range := by
    rw [← QuotientGroup.eq_one_iff, QuotientGroup.mk_pow, ← hq, pow_orderOf_eq_one]
  obtain ⟨u, hu⟩ := hpow
  refine ⟨c, u, hu.symm, ?_⟩
  rintro y rfl
  have hone : ((y ^ N : H) : H ⧸ f.range) = 1 := (QuotientGroup.eq_one_iff _).mpr ⟨y, rfl⟩
  rw [hone, orderOf_one] at hq
  exact hr.one_lt.ne hq

namespace DamgardJurik.Key

variable {key : Key} {r : Nat}

/-- The modulus of a key made from two primes. -/
theorem n_of_ofPrimes {p q s : Nat} (h : ofPrimes p q s = .ok key) : key.n = p * q :=
  (ofPrimes_eq_ok.mp h).2.1

/-- A prime factor of `n` divides the number of units modulo `N'`, as its square divides `N'`. -/
theorem dvd_card_units (hr : r.Prime) (hn : r ∣ key.n) : r ∣ Nat.card key.Ringˣ := by
  have : NeZero key.ciphertextModulus := ⟨key.ciphertextModulus_pos.ne'⟩
  have hsq : r ^ 2 ∣ key.ciphertextModulus :=
    (pow_dvd_pow_of_dvd hn 2).trans (pow_dvd_pow key.n (Nat.succ_le_succ key.s_pos))
  have htotient := Nat.totient_dvd_of_dvd hsq
  rw [Nat.totient_prime_pow hr Nat.two_pos] at htotient
  rw [Nat.card_eq_fintype_card, ZMod.card_units_eq_totient]
  exact (Dvd.intro _ (by rw [pow_one])).trans htotient

/-- For a prime factor `r` of `n`, a ciphertext does not encrypt zero, but its power with `r`
does. -/
theorem exists_no_root (hr : r.Prime) (hn : r ∣ key.n) : ∃ c u : Nat, c.Coprime key.n ∧
    u.Coprime key.n ∧ (c : key.Ring) ^ r = (u : key.Ring) ^ key.plaintextModulus ∧
      ¬ ∃ y : Nat, y.Coprime key.n ∧ key.Encrypts c 0 y := by
  have : NeZero key.ciphertextModulus := ⟨key.ciphertextModulus_pos.ne'⟩
  have hN : r ∣ key.plaintextModulus := dvd_pow hn key.s_pos.ne'
  obtain ⟨C, U, hpow, hno⟩ := exists_pow_eq_pow hr hN (dvd_card_units hr hn)
  obtain ⟨c, hc, hcast⟩ := exists_cast_eq C
  obtain ⟨u, hu, hcast'⟩ := exists_cast_eq U
  refine ⟨c, u, hc, hu, ?_, ?_⟩
  · rw [hcast, hcast']
    exact_mod_cast congrArg Units.val hpow
  · rintro ⟨y, hy, henc⟩
    obtain ⟨Y, hY⟩ := isUnit_cast.mpr hy
    refine hno Y (Units.ext ?_)
    rw [encrypts_iff, pow_zero, one_mul, hcast, ← hY] at henc
    exact_mod_cast henc

end DamgardJurik.Key

/-! ## Challenges -/

namespace Soundness

/-- The challenges of `t` bits. -/
def Challenge (t : Soundness) : Type := {e : Bytes // e.length = t.byteLength}

variable (t : Soundness)

/-- Challenges are the numbers below `2 ^ t`. -/
theorem challenge_bijective : Function.Bijective fun e : t.Challenge =>
    (⟨challengeNumber e.val, challengeNumber_lt e.property⟩ : Fin (2 ^ t.bits)) := by
  constructor
  · intro e e' h
    exact Subtype.ext (challengeNumber_inj e.property e'.property (Fin.mk.inj h))
  · rintro ⟨n, hn⟩
    obtain ⟨e, hlen, rfl⟩ := exists_challenge hn
    exact ⟨⟨e, hlen⟩, rfl⟩

instance : Finite t.Challenge := .of_injective _ t.challenge_bijective.injective

theorem card_challenge : Nat.card t.Challenge = 2 ^ t.bits := by
  rw [Nat.card_eq_of_bijective _ t.challenge_bijective, Nat.card_eq_fintype_card, Fintype.card_fin]

/-- The differences of different challenges are coprime with `n`. -/
def DifferencesCoprime (n : Nat) : Prop :=
  ∀ e e' : Bytes, e.length = t.byteLength → e'.length = t.byteLength → e ≠ e' →
    IsCoprime ((challengeNumber e : Int) - challengeNumber e') n

variable {t}

/-- If all prime factors of `n` exceed the challenges, none divides a difference. -/
theorem differencesCoprime_of_lt {n : Nat} (h : ∀ r : Nat, r.Prime → r ∣ n → 2 ^ t.bits < r) :
    t.DifferencesCoprime n := by
  intro e e' he he' hne
  have hlt := challengeNumber_lt he
  have hlt' := challengeNumber_lt he'
  have hnum : challengeNumber e ≠ challengeNumber e' := fun heq =>
    hne (challengeNumber_inj he he' heq)
  rw [Int.isCoprime_iff_gcd_eq_one]
  by_contra hgcd
  obtain ⟨r, hr, hdvd⟩ := Nat.exists_prime_and_dvd hgcd
  have hd : r ∣ ((challengeNumber e : Int) - challengeNumber e').natAbs :=
    hdvd.trans (Nat.gcd_dvd_left _ _)
  have hlarge := h r hr (hdvd.trans (Nat.gcd_dvd_right _ _))
  have hle := Nat.le_of_dvd (by omega) hd
  omega

end Soundness

/-! ## Provers without a witness -/

/-- A prover that may do whatever it wants. Its messages depend on coins, and the second one also on
the challenge. -/
structure Cheater (Coins : Type) where
  first : Coins → Message
  second : Coins → Bytes → Message

variable {E : Type} [DecidableEq E]

namespace Cheater

variable {Coins : Type} (C : Cheater Coins) (t : Soundness) (v : Verifier E) (s : Statement E)

/-- The coins and challenges with which the prover is accepted. -/
def wins : Set (Coins × t.Challenge) :=
  {x | v.Accepts x.2.val s (C.first x.1) (C.second x.1 x.2.val)}

/-- The probability that the prover is accepted, for uniform coins and a uniform challenge. -/
noncomputable def successRate : Rat :=
  Nat.card (C.wins t v s) / Nat.card (Coins × t.Challenge)

variable {C t v s}

/-- If each first message can be completed for one challenge only, the prover has to guess it. -/
theorem successRate_le [Finite Coins] (h : ∀ (first : Message) (e e' : Bytes) (z z' : Message),
    v.Accepts e s first z → v.Accepts e' s first z' → e = e') :
    C.successRate t v s ≤ 1 / 2 ^ t.bits := by
  -- the coins determine the first message, and so the challenge
  have hinj : Function.Injective fun x : C.wins t v s => x.val.1 := by
    rintro ⟨⟨coins, e⟩, hx⟩ ⟨⟨coins', e'⟩, hx'⟩ heq
    obtain rfl : coins = coins' := heq
    obtain rfl : e = e' := Subtype.ext (h _ _ _ _ _ hx hx')
    rfl
  have hcard : (Nat.card (C.wins t v s) : Rat) ≤ Nat.card Coins := by
    exact_mod_cast Nat.card_le_card_of_injective _ hinj
  calc C.successRate t v s
      ≤ Nat.card Coins / Nat.card (Coins × t.Challenge) :=
        div_le_div_of_nonneg_right hcard (Nat.cast_nonneg _)
    _ = Nat.card Coins / Nat.card Coins / 2 ^ t.bits := by
        rw [Nat.card_prod, t.card_challenge, Nat.cast_mul, div_mul_eq_div_div, Nat.cast_pow,
          Nat.cast_ofNat]
    _ ≤ 1 / 2 ^ t.bits := div_le_div_of_nonneg_right (div_self_le_one _) (by positivity)

/-- If a first message can be completed for two challenges, a prover can do better than guess. -/
theorem exists_lt_successRate {first z z' : Message} {e e' : Bytes} (he : e.length = t.byteLength)
    (he' : e'.length = t.byteLength) (hne : e ≠ e') (h : v.Accepts e s first z)
    (h' : v.Accepts e' s first z') : ∃ C : Cheater Unit, 1 / 2 ^ t.bits < C.successRate t v s := by
  let C : Cheater Unit := ⟨fun _ => first, fun _ c => if c = e then z else z'⟩
  have hwins : ((), ⟨e, he⟩) ∈ C.wins t v s := by
    show v.Accepts e s first (if e = e then z else z')
    rw [if_pos rfl]
    exact h
  have hwins' : ((), ⟨e', he'⟩) ∈ C.wins t v s := by
    show v.Accepts e' s first (if e' = e then z else z')
    rw [if_neg hne.symm]
    exact h'
  have : Nontrivial (C.wins t v s) := by
    refine ⟨⟨_, hwins⟩, ⟨_, hwins'⟩, fun heq => hne ?_⟩
    exact congrArg (fun x => x.val.2.val) heq
  have hcard : (1 : Rat) < Nat.card (C.wins t v s) := by
    exact_mod_cast Finite.one_lt_card
  refine ⟨C, ?_⟩
  have hunit : Nat.card Unit = 1 := Nat.card_unique
  rw [successRate, Nat.card_prod, t.card_challenge, hunit, Nat.one_mul, Nat.cast_pow,
    Nat.cast_ofNat]
  exact div_lt_div_of_pos_right hcard (by positivity)

end Cheater

/-! ## The protocols for ciphertexts -/

namespace Protocol

/-- Two accepted runs with one first message and different challenges show how the ciphertexts
open. -/
def Extracts (key : Key) (P : Protocol E) : Prop :=
  ∀ v v' : Verifier E, v.protocol = P → v'.protocol = P → ∀ s : Statement E, s.key? = some key →
    ∀ (first : Message) (e e' : Bytes) (z z' : Message), e ≠ e' → v.Accepts e s first z →
      v'.Accepts e' s first z' → s.HasOpening

/-- Whatever a prover does, it is accepted with probability at most `2 ^ (-t)` for ciphertexts that
do not open as the statement says. -/
def ErrorBounded (key : Key) (t : Soundness) (P : Protocol E) : Prop :=
  ∀ v : Verifier E, v.protocol = P → ∀ s : Statement E, s.key? = some key → ¬ s.HasOpening →
    ∀ (Coins : Type) [Finite Coins] (C : Cheater Coins), C.successRate t v s ≤ 1 / 2 ^ t.bits

variable {key : Key} {t : Soundness} {P : Protocol E}

omit [DecidableEq E] in
theorem soundness_of_mem (hP : P ∈ ciphertextProofs t) : P.soundness = t := by
  simp only [ciphertextProofs, List.mem_cons, List.not_mem_nil, or_false] at hP
  obtain rfl | rfl | rfl := hP <;> rfl

theorem errorBounded_of_extracts (h : P.Extracts key) : P.ErrorBounded key t := by
  intro v hv s hkey hno Coins _ C
  refine C.successRate_le fun first e e' z z' hacc hacc' => ?_
  by_contra hne
  exact hno (h v v hv hv s hkey first e e' z z' hne hacc hacc')

theorem extracts_of_errorBounded (hP : P ∈ ciphertextProofs t) (h : P.ErrorBounded key t) :
    P.Extracts key := by
  intro v v' hv hv' s hkey first e e' z z' hne hacc hacc'
  have hrun := (verifier_accepts_iff hv).mp hacc
  have hrun' := (verifier_accepts_iff hv').mp hacc'
  by_contra hno
  obtain ⟨C, hC⟩ := Cheater.exists_lt_successRate (soundness_of_mem hP ▸ hrun.length_eq)
    (soundness_of_mem hP ▸ hrun'.length_eq) hne hacc ((verifier_accepts_iff hv).mpr hrun')
  exact absurd (h v hv s hkey hno Unit C) (not_le.mpr hC)

theorem extracts_of_differencesCoprime (h : t.DifferencesCoprime key.n)
    (hP : P ∈ ciphertextProofs t) : P.Extracts key := by
  intro v v' hv hv' s hkey first e e' z z' hne hacc hacc'
  have hrun : P.Accepts s ⟨first, e, z⟩ := (verifier_accepts_iff hv).mp hacc
  have hrun' : P.Accepts s ⟨first, e', z'⟩ := (verifier_accepts_iff hv').mp hacc'
  refine hasOpening_of_accepts hkey ?_ ?_ hP hrun hrun'
  · exact h e e' (soundness_of_mem hP ▸ hrun.length_eq) (soundness_of_mem hP ▸ hrun'.length_eq) hne
  · rfl

/-- The commitment 1 is accepted, if the response is a root of the power of the ciphertext. -/
theorem accepts_one (hkey : key.requireLength t = .ok ()) {c z : Nat} {e : Bytes}
    (he : e.length = t.byteLength) (hc : c.Coprime key.n) (hz : z.Coprime key.n)
    (heq : (z : key.Ring) ^ key.plaintextModulus = (c : key.Ring) ^ challengeNumber e) :
    (Verifier.ofProtocol (djZero t : Protocol E)).Accepts e (.djZero key c) (.integer 1)
      (.integer z) := by
  have hone : (1 : Nat).Coprime key.n := Nat.coprime_one_left key.n
  have haccepts : EncryptedZero.accepts key c (challengeNumber e) 1 z = true :=
    EncryptedZero.accepts_iff.mpr ⟨hc, hone, hz, by rw [heq, Nat.cast_one, one_mul]⟩
  exact (verifier_accepts_iff (Verifier.protocol_ofProtocol _)).mpr ⟨he,
    Leaf.verify_encryptedZero.mpr ⟨_, _, _, _, rfl, rfl, rfl, hkey, haccepts⟩⟩

/-- If two accepted runs always show how a ciphertext opens, the prime factors of `n` exceed the
challenges: for a smaller one, a ciphertext that does not encrypt zero is accepted under the
challenges 0 and `r`. -/
theorem lt_of_extracts (hkey : key.requireLength t = .ok ())
    (h : (djZero t : Protocol E).Extracts key) {r : Nat} (hr : r.Prime) (hn : r ∣ key.n) :
    2 ^ t.bits < r := by
  by_contra hle
  -- `n` is odd
  have hne : r ≠ 2 ^ t.bits := by
    rintro rfl
    have hodd := key.n_odd
    have heven : 2 ∣ key.n := (dvd_pow_self 2 t.bits_pos.ne').trans hn
    omega
  obtain ⟨e, he, henum⟩ := exists_challenge (t := t) (n := 0) (by positivity)
  obtain ⟨e', he', henum'⟩ := exists_challenge (t := t) (n := r) (by omega)
  have hchallenges : e ≠ e' := by
    rintro rfl
    exact hr.ne_zero (henum'.symm.trans henum)
  obtain ⟨c, u, hc, hu, hpow, hno⟩ := Key.exists_no_root hr hn
  have hone : (1 : Nat).Coprime key.n := Nat.coprime_one_left key.n
  have hacc := accepts_one (E := E) hkey he hc hone
    (by rw [henum, Nat.cast_one, one_pow, pow_zero])
  have hacc' := accepts_one (E := E) hkey he' hc hu (by rw [henum', hpow])
  have hv := Verifier.protocol_ofProtocol (djZero t : Protocol E)
  exact hno (Statement.hasOpening_djZero.mp
    (h _ _ hv hv _ rfl _ e e' _ _ hchallenges hacc hacc'))

/-- For a key that is long enough, four properties are the same: the differences of challenges are
coprime with `n`; two accepted runs of the protocols for ciphertexts always show how these open; a
prover is accepted for other ciphertexts with probability at most `2 ^ (-t)`; and all prime factors
of `n` exceed `2 ^ t`. For a product of two primes, both have to exceed it. -/
theorem sound_tfae (hkey : key.requireLength t = .ok ()) :
    List.TFAE [
      t.DifferencesCoprime key.n,
      ∀ P ∈ (ciphertextProofs t : List (Protocol E)), P.Extracts key,
      ∀ P ∈ (ciphertextProofs t : List (Protocol E)), P.ErrorBounded key t,
      ∀ r : Nat, r.Prime → r ∣ key.n → 2 ^ t.bits < r] ∧
    ∀ p q s : Nat, Key.ofPrimes p q s = .ok key → p.Prime → q.Prime →
      ((∀ r : Nat, r.Prime → r ∣ key.n → 2 ^ t.bits < r) ↔ 2 ^ t.bits < p ∧ 2 ^ t.bits < q) := by
  constructor
  · tfae_have 1 → 2 := fun h P hP => extracts_of_differencesCoprime h hP
    tfae_have 2 → 3 := fun h P hP => errorBounded_of_extracts (h P hP)
    tfae_have 3 → 2 := fun h P hP => extracts_of_errorBounded hP (h P hP)
    tfae_have 2 → 4 := fun h r hr hn => lt_of_extracts hkey (h _ (by simp [ciphertextProofs])) hr hn
    tfae_have 4 → 1 := Soundness.differencesCoprime_of_lt
    tfae_finish
  · intro p q s hprimes hp hq
    rw [Key.n_of_ofPrimes hprimes]
    constructor
    · intro h
      exact ⟨h p hp (Dvd.intro q rfl), h q hq (Dvd.intro_left p rfl)⟩
    · rintro ⟨hpt, hqt⟩ r hr hdvd
      obtain h | h := hr.dvd_mul.mp hdvd
      · rwa [(Nat.prime_dvd_prime_iff_eq hr hp).mp h]
      · rwa [(Nat.prime_dvd_prime_iff_eq hr hq).mp h]

/-- For primes of 13 bits, no prover is accepted with a probability above `2 ^ (-8)`. -/
theorem sound_tfae_smallKey : smallKey.requireLength smallSoundness = .ok () ∧
    ∀ P ∈ (ciphertextProofs smallSoundness : List (Protocol Nat)),
      P.ErrorBounded smallKey smallSoundness := by
  have hkey : smallKey.requireLength smallSoundness = .ok () := by decide
  have hprimes : Key.ofPrimes 4099 4111 1 = .ok smallKey := by decide +kernel
  obtain ⟨htfae, hfactors⟩ := sound_tfae (E := Nat) hkey
  have hlarge := (hfactors 4099 4111 1 hprimes (by norm_num) (by norm_num)).mpr
    ⟨by decide, by decide⟩
  exact ⟨hkey, (htfae.out 3 2).mp hlarge⟩

/-! ### A small prime factor -/

/-- A key with the primes 3 and 8388593, of 25 bits. -/
def unbalancedKey : Key := { smallKey with n := 3 * 8388593, n_gt := by decide, n_odd := by decide }

/-- An encryption of `n / 3` with randomness 1. Its cube encrypts zero. -/
def unbalancedCiphertext : Nat := unbalancedKey.encrypt 8388593 1

/-- Cubes modulo 9, and their powers with odd exponents, are 0, 1 and -1. -/
theorem ne_pow_modulus (r : ZMod 9) : r ^ (3 * 8388593) ≠ 4 := by
  have hcube : ∀ x : ZMod 9, x ^ 3 = 0 ∨ x ^ 3 = 1 ∨ x ^ 3 = -1 := by decide
  rw [pow_mul]
  obtain h | h | h := hcube r
  · rw [h, zero_pow (by decide)]
    decide
  · rw [h, one_pow]
    decide
  · rw [h, Odd.neg_one_pow (by decide)]
    decide

/-- The modulus is long enough for challenges of one byte, but 3 divides some of their differences:
a ciphertext that does not encrypt zero is accepted under the challenges 0 and 3. -/
theorem unbalancedKey_not_sound :
    Key.ofPrimes 3 8388593 1 = .ok unbalancedKey ∧
      unbalancedKey.requireLength smallSoundness = .ok () ∧
      ¬ IsCoprime ((challengeNumber [0] : Int) - challengeNumber [3]) unbalancedKey.n ∧
      (Verifier.ofProtocol (djZero smallSoundness : Protocol Nat)).Accepts [0]
        (.djZero unbalancedKey unbalancedCiphertext) (.integer 1) (.integer 1) ∧
      (Verifier.ofProtocol (djZero smallSoundness : Protocol Nat)).Accepts [3]
        (.djZero unbalancedKey unbalancedCiphertext) (.integer 1) (.integer 1) ∧
      ¬ (Statement.djZero unbalancedKey unbalancedCiphertext : Statement Nat).HasOpening := by
  have hkey : unbalancedKey.requireLength smallSoundness = .ok () := by decide
  have hmodulus : unbalancedKey.plaintextModulus = 3 * 8388593 := Nat.pow_one _
  have hone : (1 : Nat).Coprime unbalancedKey.n := Nat.coprime_one_left _
  have hc : unbalancedCiphertext.Coprime unbalancedKey.n := Key.encrypt_coprime _ hone
  have hcube : (unbalancedCiphertext : unbalancedKey.Ring) ^ 3 = 1 := by
    rw [unbalancedCiphertext, Key.cast_encrypt, Nat.cast_one, one_pow, mul_one, ← pow_mul,
      Nat.mul_comm, ← hmodulus, Key.generator_pow_plaintextModulus]
  refine ⟨by decide +kernel, hkey, ?_, accepts_one hkey rfl hc hone ?_,
    accepts_one hkey rfl hc hone ?_, ?_⟩
  · rw [Int.isCoprime_iff_gcd_eq_one]
    decide
  · rw [Nat.cast_one, one_pow]
    exact (pow_zero _).symm
  · rw [Nat.cast_one, one_pow]
    exact hcube.symm
  · rintro ⟨r, -, h⟩
    have hdvd : 9 ∣ unbalancedKey.ciphertextModulus := by decide +kernel
    have hcast := (ZMod.natCast_eq_natCast_iff _ _ 9).mpr (h.of_dvd hdvd)
    have hfour : (unbalancedCiphertext : ZMod 9) = 4 := by decide +kernel
    rw [hfour, Nat.cast_pow, hmodulus] at hcast
    exact ne_pow_modulus r hcast.symm

end Protocol

end SigmaProofs
