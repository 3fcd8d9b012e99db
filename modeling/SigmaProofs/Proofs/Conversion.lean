import SigmaProofs.Proofs.Group.Lawful
import SigmaProofs.Proofs.Relation

/-!
# Conversions keep what is proved

For members and ciphertexts, the equation of a converted statement is that of the original one:
`pedersenValue_iff`, `elGamalValue_iff` and `unmask_iff`.

* `Conversion.keepsEquations`: so the conversions preserve and reflect what is proved, for all
  values and exponents.
* `Protocol.Suits.apply`: a statement that suits an adapted protocol is converted to one that suits
  the protocol inside, and a witness of the former is a witness of the latter.
-/

namespace SigmaProofs

open PrimeGroup DamgardJurik

namespace Conversion

variable {E : Type} {G : PrimeGroup E} [G.Lawful]

/-- `c = g ^ r * h ^ x` if and only if `c * h ^ (-x) = g ^ r`. -/
theorem pedersenValue_iff {h c : E} (hh : G.isMember h = true) (hc : G.isMember c = true)
    (x r : Nat) :
    c = Pedersen.commit G h x r ↔
      G.mul c (G.pow h (negMod G.order x)) = G.powGenerator r := by
  have hm : (⟨c, hc⟩ : G.Member) = Member.generator G ^ r * ⟨h, hh⟩ ^ x ↔
      (⟨c, hc⟩ : G.Member) * ⟨h, hh⟩ ^ negMod G.order x = Member.generator G ^ r := by
    rw [Member.pow_negMod, mul_inv_eq_iff_eq_mul]
  exact Member.ext_iff.symm.trans (hm.trans Member.ext_iff)

/-- `c2 = m * a ^ w` if and only if `c2 / m = a ^ w`. -/
theorem elGamalValue_iff {a c2 m : E} (ha : G.isMember a = true) (hc : G.isMember c2 = true)
    (hm : G.isMember m = true) (w : Nat) :
    c2 = G.mul m (G.pow a w) ↔ G.mul c2 (G.inv m) = G.pow a w := by
  have h : (⟨c2, hc⟩ : G.Member) = ⟨m, hm⟩ * ⟨a, ha⟩ ^ w ↔
      (⟨c2, hc⟩ : G.Member) * ⟨m, hm⟩⁻¹ = ⟨a, ha⟩ ^ w := by
    rw [mul_inv_eq_iff_eq_mul, mul_comm]
  exact Member.ext_iff.symm.trans (h.trans Member.ext_iff)

omit [G.Lawful] in
/-- The factor by which a plaintext is divided out is the inverse of its power. -/
theorem cast_unmask (key : Key) (c x : Nat) :
    ((key.unmask c x : Nat) : key.Ring) * ((key.n + 1 : Nat) : key.Ring) ^ x = c := by
  rw [Key.unmask_def, ZMod.natCast_mod, Nat.cast_mul, cast_powMod, mul_assoc, ← pow_add]
  obtain ⟨k, hk⟩ := dvd_negMod_add key.plaintextModulus_pos x
  rw [hk, pow_mul, Key.generator_pow_plaintextModulus, one_pow, mul_one]

/-- `c` encrypts `x` if and only if `c * (1 + n) ^ (-x)` encrypts zero. -/
theorem unmask_iff (key : Key) (c x r : Nat) :
    key.Encrypts c x r ↔ key.Encrypts (key.unmask c x) 0 r := by
  have hunit : IsUnit (((key.n + 1 : Nat) : key.Ring) ^ x) :=
    (Key.isUnit_cast.mpr (by simp)).pow x
  rw [Key.encrypts_iff, Key.encrypts_iff, pow_zero, one_mul, ← cast_unmask key c x,
    mul_comm (_ ^ x), hunit.mul_left_inj]

/-- `c` is the product of `(1 + n) ^ x` and an `N`-th power if and only if the converted ciphertext
is that power. -/
theorem unmask_modEq_iff (key : Key) (c x r : Nat) :
    c ≡ (1 + key.n) ^ x * r ^ key.plaintextModulus [MOD key.ciphertextModulus] ↔
      key.unmask c x ≡ r ^ key.plaintextModulus [MOD key.ciphertextModulus] := by
  rw [← Key.encrypts_iff_modEq, unmask_iff, Key.encrypts_iff_modEq, pow_zero, one_mul]

theorem unmask_coprime {key : Key} {c : Nat} (hc : c.Coprime key.n) (x : Nat) :
    (key.unmask c x).Coprime key.n := by
  have hunit : IsUnit (c : key.Ring) := Key.isUnit_cast.mpr hc
  rw [← cast_unmask key c x] at hunit
  exact Key.isUnit_cast.mp (isUnit_of_mul_isUnit_left hunit)

/-- A conversion gives a statement whose equations hold for the same numbers as those of the
original one. Elements are members of the group; values, exponents and ciphertexts are any
numbers, also above the order or the modulus. -/
structure KeepsEquations (G : PrimeGroup E) : Prop where
  pedersenValue {h c : E} (hh : G.isMember h = true) (hc : G.isMember c = true) (x : Nat) :
    ∃ y, (pedersenValue G).apply (.pedersenValue h c x) = .ok (.dlog y) ∧
      ∀ w, c = G.mul (G.powGenerator w) (G.pow h x) ↔ y = G.powGenerator w
  elGamalCommitted {h c1 c2 m : E} (hh : G.isMember h = true) (h1 : G.isMember c1 = true)
    (h2 : G.isMember c2 = true) (hm : G.isMember m = true) :
    ∃ k u v, (elGamalValue G).apply (.elGamalCommitted h c1 c2 m) = .ok (.dhTuple k u v) ∧
      ∀ w, (c1 = G.powGenerator w ∧ c2 = G.mul m (G.pow h w)) ↔
        (u = G.powGenerator w ∧ v = G.pow k w)
  elGamalRandomness {h c1 c2 m : E} (hh : G.isMember h = true) (h1 : G.isMember c1 = true)
    (h2 : G.isMember c2 = true) (hm : G.isMember m = true) :
    ∃ k u v, (elGamalValue G).apply (.elGamalEncrypted h c1 c2 m .randomness) =
        .ok (.dhTuple k u v) ∧
      ∀ w, (c1 = G.powGenerator w ∧ c2 = G.mul m (G.pow h w)) ↔
        (u = G.powGenerator w ∧ v = G.pow k w)
  /-- Here the exponent is the private key. -/
  elGamalPrivateKey {h c1 c2 m : E} (hh : G.isMember h = true) (h1 : G.isMember c1 = true)
    (h2 : G.isMember c2 = true) (hm : G.isMember m = true) :
    ∃ k u v, (elGamalValue G).apply (.elGamalEncrypted h c1 c2 m .privateKey) =
        .ok (.dhTuple k u v) ∧
      ∀ w, (h = G.powGenerator w ∧ c2 = G.mul m (G.pow c1 w)) ↔
        (u = G.powGenerator w ∧ v = G.pow k w)
  djValue (key : Key) (c x : Nat) :
    ∃ c', (djValue : Conversion E).apply (.djValue key c x) = .ok (.djZero key c') ∧
      ∀ r, c ≡ (1 + key.n) ^ x * r ^ key.plaintextModulus [MOD key.ciphertextModulus] ↔
        c' ≡ r ^ key.plaintextModulus [MOD key.ciphertextModulus]

/-- The three ways of dividing out a public value, by the power `q - 1`, by a negated exponent
modulo `q` and by one modulo `N`, keep the equations. -/
theorem keepsEquations (G : PrimeGroup E) [G.Lawful] : KeepsEquations G where
  pedersenValue hh hc x := ⟨_, rfl, pedersenValue_iff hh hc x⟩
  elGamalCommitted hh _ h2 hm :=
    ⟨_, _, _, rfl, fun w => and_congr_right' (elGamalValue_iff hh h2 hm w)⟩
  elGamalRandomness hh _ h2 hm :=
    ⟨_, _, _, rfl, fun w => and_congr_right' (elGamalValue_iff hh h2 hm w)⟩
  elGamalPrivateKey _ h1 h2 hm :=
    ⟨_, _, _, rfl, fun w => and_congr_right' (elGamalValue_iff h1 h2 hm w)⟩
  djValue key c x := ⟨_, rfl, unmask_modEq_iff key c x⟩

theorem keepsEquations_small : KeepsEquations SchnorrGroup.small.toPrimeGroup :=
  have := SchnorrGroup.small_lawful
  keepsEquations _

end Conversion

/-! ## Adapted protocols -/

namespace Protocol

variable {E : Type}

/-- What an adapted protocol is run on and proves is what the protocol inside is run on and proves
after the conversion. -/
theorem Suits.apply {c : Conversion E} {P : Protocol E} {s : Statement E}
    (h : Suits (.adapted c P) s) (hG : ∀ G ∈ (adapted c P).groups, G.Lawful) :
    ∃ t l s', P = .leaf t l ∧ c.apply s = .ok s' ∧ l.Suits t s' ∧
      ∀ w, Relates (.adapted c P) s w → l.Relates s' w := by
  cases h with
  | @pedersenValue t G h c x hh hc =>
    have := hG G (by simp [groups, Conversion.group?])
    refine ⟨t, _, _, rfl, rfl, .dlog (Lawful.mul_mem hc (Lawful.pow_mem _ hh)), ?_⟩
    intro w hw
    cases hw with
    | pedersenValue hw => exact .dlog ((Conversion.pedersenValue_iff hh hc x _).mp hw)
  | @elGamalKnowledge t G h hh =>
    refine ⟨t, _, _, rfl, rfl, .dlog hh, ?_⟩
    intro w hw
    cases hw with
    | elGamalKnowledge hw => exact .dlog hw
  | @elGamalCommitted t G h c1 c2 m hh h1 h2 hm =>
    have := hG G (by simp [groups, Conversion.group?])
    refine ⟨t, _, _, rfl, rfl, .dhTuple hh h1 (Lawful.mul_mem h2 (Lawful.inv_mem hm)), ?_⟩
    intro w hw
    cases hw with
    | elGamalCommitted hw1 hw2 =>
      exact .dhTuple hw1 ((Conversion.elGamalValue_iff hh h2 hm _).mp hw2)
  | @elGamalEncrypted t G h c1 c2 m secret hh h1 h2 hm =>
    have := hG G (by simp [groups, Conversion.group?])
    have hv := Lawful.mul_mem h2 (Lawful.inv_mem hm)
    cases secret with
    | randomness =>
      refine ⟨t, _, _, rfl, rfl, .dhTuple hh h1 hv, ?_⟩
      intro w hw
      cases hw with
      | elGamalRandomness hw1 hw2 =>
        exact .dhTuple hw1 ((Conversion.elGamalValue_iff hh h2 hm _).mp hw2)
    | privateKey =>
      refine ⟨t, _, _, rfl, rfl, .dhTuple h1 hh hv, ?_⟩
      intro w hw
      cases hw with
      | elGamalPrivateKey hw1 hw2 =>
        exact .dhTuple hw1 ((Conversion.elGamalValue_iff h1 h2 hm _).mp hw2)
  | @djValue t key c x hkey hc =>
    refine ⟨t, _, _, rfl, rfl, .encryptedZero hkey (Conversion.unmask_coprime hc x), ?_⟩
    intro w hw
    cases hw with
    | djValue hw => exact .encryptedZero ((Conversion.unmask_iff key c x _).mp hw)

end Protocol

end SigmaProofs
