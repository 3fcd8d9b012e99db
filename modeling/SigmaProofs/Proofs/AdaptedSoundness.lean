import SigmaProofs.Proofs.SpecialSoundness

/-!
# What accepted adapted proofs say of the original statement

The protocol inside an adapted protocol checks that the elements of the converted statement are
members. The conversion divides by a value: it multiplies with the power `q - 1` of an ElGamal
plaintext, and with the power `q - x` of a Pedersen key. For values that are no members these are
no inverses, and no verifier checks the values.

* `SchnorrGroup.Faithful`: the value that a statement is divided by is a member.
* `SchnorrGroup.elGamal_iff`, `SchnorrGroup.pedersen_iff`: the witness of a converted statement is
  one of the original statement exactly in this case.
* `Protocol.relates_iff_faithful`: if a verifier accepts two challenges, the original statement has
  a witness if and only if it is faithful.
* `Protocol.elGamalValue_not_sound`: there are accepted proofs of statements without a witness.
-/

namespace SigmaProofs

open PrimeGroup

namespace SchnorrGroup

variable {S : SchnorrGroup}

/-- The conversion of the statement can be undone: what it divides by is a member, and what is
divided is reduced. -/
def Faithful (S : SchnorrGroup) : Statement Nat → Prop
  | .elGamalCommitted _ _ c2 m | .elGamalEncrypted _ _ c2 m _ =>
    c2 < S.p ∧ S.isMember (m % S.p) = true
  | .pedersenValue h c x => c < S.p ∧ S.isMember (S.pow h (negMod S.q x + x)) = true
  | _ => False

section Prime

variable [hp : Fact S.p.Prime] (hq : S.q.Prime) (hS : S.hasPrimeOrder = true)

include hq hS

/-- An exponent that fits the quotient `c2 / m` fits `c2` itself, if and only if `m` is a member. -/
theorem elGamal_iff {h u c2 m w : Nat} (hh : S.isMember h = true) (hu : u = S.pow S.g w)
    (hv : S.mul c2 (S.inv m) = S.pow h w) :
    (∃ r, u = S.pow S.g r ∧ c2 = S.mul m (S.pow h r)) ↔
      c2 < S.p ∧ S.isMember (m % S.p) = true := by
  have := lawful hp.out hq hS
  have hcast : (c2 : ZMod S.p) * (m : ZMod S.p) ^ (S.q - 1) = (h : ZMod S.p) ^ w := by
    rw [← cast_inv, ← cast_mul, hv, cast_pow]
  have hm : (m : ZMod S.p) ^ (S.q - 1) * m = (m : ZMod S.p) ^ S.q := by
    rw [← pow_succ, Nat.sub_add_cancel hq.pos]
  constructor
  · rintro ⟨r, hr, hc2⟩
    have hgen : S.toPrimeGroup.powGenerator r = S.toPrimeGroup.powGenerator w := hr.symm.trans hu
    have hpow : S.pow h r = S.pow h w := Lawful.pow_eq_of_powGenerator_eq hh hgen
    have hne : (h : ZMod S.p) ^ w ≠ 0 := by
      intro h0
      have hone := (isMember_iff hq.pos).mp (isMember_pow hq.pos w hh)
      rw [cast_pow, h0, zero_pow hq.ne_zero] at hone
      exact zero_ne_one hone.2
    refine ⟨hc2 ▸ mul_lt _ _, (isMember_iff hq.pos).mpr ⟨Nat.mod_lt _ hp.out.pos, ?_⟩⟩
    rw [hc2, hpow, cast_mul, cast_pow, mul_right_comm, mul_comm (m : ZMod S.p), hm] at hcast
    rw [ZMod.natCast_mod]
    exact mul_right_cancel₀ hne (hcast.trans (one_mul _).symm)
  · rintro ⟨hlt, hmem⟩
    have hone := ((isMember_iff hq.pos).mp hmem).2
    rw [ZMod.natCast_mod] at hone
    refine ⟨w, hu, eq_of_cast hlt (mul_lt _ _) ?_⟩
    rw [cast_mul, cast_pow, ← hcast, mul_left_comm, mul_comm (m : ZMod S.p), hm, hone, mul_one]

/-- An exponent that fits the quotient `c / h ^ x` fits `c` up to a power of `h`, which has to be a
member. -/
theorem pedersen_iff {h c x w : Nat} (hd : S.mul c (S.pow h (negMod S.q x)) = S.pow S.g w) :
    (∃ r, c = S.mul (S.pow S.g r) (S.pow h x)) ↔
      c < S.p ∧ S.isMember (S.pow h (negMod S.q x + x)) = true := by
  obtain ⟨-, -, hgq⟩ := of_hasPrimeOrder hS
  have hcast : (c : ZMod S.p) * (h : ZMod S.p) ^ negMod S.q x = (S.g : ZMod S.p) ^ w := by
    rw [← cast_pow, ← cast_mul, hd, cast_pow]
  have hroot (n : Nat) : ((S.g : ZMod S.p) ^ n) ^ S.q = 1 := by
    rw [← pow_mul, Nat.mul_comm, pow_mul, hgq, one_pow]
  constructor
  · rintro ⟨r, hr⟩
    refine ⟨hr ▸ mul_lt _ _, (isMember_iff hq.pos).mpr ⟨pow_lt _ _, ?_⟩⟩
    rw [hr, cast_mul, cast_pow, cast_pow, mul_assoc, ← pow_add, Nat.add_comm] at hcast
    have hpow := congrArg (· ^ S.q) hcast
    simp only [mul_pow, hroot, one_mul] at hpow
    rw [cast_pow, hpow]
  · rintro ⟨hlt, hmem⟩
    obtain ⟨m, hm⟩ := exists_pow_eq hq hS hmem
    have hpow : (h : ZMod S.p) ^ negMod S.q x * (h : ZMod S.p) ^ x = (S.g : ZMod S.p) ^ m := by
      rw [← pow_add, ← cast_pow, hm, cast_pow]
    have hinv : (S.g : ZMod S.p) ^ m * (S.g : ZMod S.p) ^ negMod S.q m = 1 := by
      obtain ⟨k, hk⟩ := dvd_negMod_add hq.pos m
      rw [← pow_add, Nat.add_comm, hk, pow_mul, hgq, one_pow]
    refine ⟨w + negMod S.q m, eq_of_cast hlt (mul_lt _ _) ?_⟩
    rw [cast_mul, cast_pow, cast_pow, pow_add, ← hcast]
    calc (c : ZMod S.p)
        = c * ((S.g : ZMod S.p) ^ m * (S.g : ZMod S.p) ^ negMod S.q m) := by rw [hinv, mul_one]
      _ = c * ((h : ZMod S.p) ^ negMod S.q x * (h : ZMod S.p) ^ x) *
            (S.g : ZMod S.p) ^ negMod S.q m := by rw [hpow, mul_assoc]
      _ = c * (h : ZMod S.p) ^ negMod S.q x * (S.g : ZMod S.p) ^ negMod S.q m *
            (h : ZMod S.p) ^ x := by ring

end Prime

end SchnorrGroup

namespace Protocol

variable {S : SchnorrGroup} {t : Soundness}

/-! ### Witnesses are exponents -/

section Witnesses

variable {E : Type} {G : PrimeGroup E} {h c1 c2 m : E}

theorem exists_elGamalCommitted :
    (∃ w, (adapted (.elGamalValue G) (.leaf t (.dhTuple G))).Relates
      (.elGamalCommitted h c1 c2 m) w) ↔
      ∃ r, c1 = G.powGenerator r ∧ c2 = G.mul m (G.pow h r) := by
  constructor
  · rintro ⟨_, hw⟩
    cases hw with
    | @elGamalCommitted _ _ _ _ _ _ r h1 h2 => exact ⟨r, h1, h2⟩
  · rintro ⟨r, h1, h2⟩
    exact ⟨_, .elGamalCommitted h1 h2⟩

theorem exists_elGamalRandomness :
    (∃ w, (adapted (.elGamalValue G) (.leaf t (.dhTuple G))).Relates
      (.elGamalEncrypted h c1 c2 m .randomness) w) ↔
      ∃ r, c1 = G.powGenerator r ∧ c2 = G.mul m (G.pow h r) := by
  constructor
  · rintro ⟨_, hw⟩
    cases hw with
    | @elGamalRandomness _ _ _ _ _ _ r h1 h2 => exact ⟨r, h1, h2⟩
  · rintro ⟨r, h1, h2⟩
    exact ⟨_, .elGamalRandomness h1 h2⟩

theorem exists_elGamalPrivateKey :
    (∃ w, (adapted (.elGamalValue G) (.leaf t (.dhTuple G))).Relates
      (.elGamalEncrypted h c1 c2 m .privateKey) w) ↔
      ∃ w, h = G.powGenerator w ∧ c2 = G.mul m (G.pow c1 w) := by
  constructor
  · rintro ⟨_, hw⟩
    cases hw with
    | @elGamalPrivateKey _ _ _ _ _ _ w h1 h2 => exact ⟨w, h1, h2⟩
  · rintro ⟨w, h1, h2⟩
    exact ⟨_, .elGamalPrivateKey h1 h2⟩

theorem exists_pedersenValue {c : E} {x : Nat} :
    (∃ w, (adapted (.pedersenValue G) (.leaf t (.dlog G))).Relates (.pedersenValue h c x) w) ↔
      ∃ r, c = Pedersen.commit G h x r := by
  constructor
  · rintro ⟨_, hw⟩
    cases hw with
    | @pedersenValue _ _ _ _ _ r hc => exact ⟨r, hc⟩
  · rintro ⟨r, hc⟩
    exact ⟨_, .pedersenValue hc⟩

end Witnesses

/-! ### Two accepted challenges -/

/-- The converted statement has a witness, and its elements are members. -/
theorem exists_dhTuple_witness [S.toPrimeGroup.Lawful] (ht : 2 ^ t.bits < S.q)
    {s : Statement Nat} {run run' : Conversation} (hfirst : run.first = run'.first)
    (hne : run.challenge ≠ run'.challenge)
    (hacc : (leaf t (.dhTuple S.toPrimeGroup)).Accepts s run)
    (hacc' : (leaf t (.dhTuple S.toPrimeGroup)).Accepts s run') :
    ∃ h u v w, s = .dhTuple h u v ∧ S.isMember h = true ∧ u = S.pow S.g w ∧ v = S.pow h w := by
  obtain ⟨w, hw⟩ := specialSound_iff.mp (specialSound_group rfl ht) s run run' hfirst hne hacc hacc'
  obtain ⟨h, u, v, a, b, z, rfl, -, -, hv⟩ := Leaf.verify_dhTuple.mp hacc.verdict_eq
  obtain ⟨-, -, -, -, hh, -⟩ := DhTuple.accepts_iff.mp hv
  cases hw with
  | @dhTuple _ _ _ _ w hu hvw => exact ⟨h, u, v, w, rfl, hh, hu, hvw⟩

/-- Two accepted challenges for an ElGamal value. -/
theorem elGamalValue_iff_faithful [hp : Fact S.p.Prime] (hq : S.q.Prime)
    (hS : S.hasPrimeOrder = true) (ht : 2 ^ t.bits < S.q) {s : Statement Nat}
    {run run' : Conversation} (hfirst : run.first = run'.first)
    (hne : run.challenge ≠ run'.challenge)
    (hacc : (adapted (.elGamalValue S.toPrimeGroup) (.leaf t (.dhTuple S.toPrimeGroup))).Accepts
      s run)
    (hacc' : (adapted (.elGamalValue S.toPrimeGroup) (.leaf t (.dhTuple S.toPrimeGroup))).Accepts
      s run') :
    (∃ w, (adapted (.elGamalValue S.toPrimeGroup) (.leaf t (.dhTuple S.toPrimeGroup))).Relates
      s w) ↔ S.Faithful s := by
  have := SchnorrGroup.lawful hp.out hq hS
  obtain ⟨s₁, hs₁, hacc₁⟩ := accepts_adapted_iff.mp hacc
  obtain ⟨s₂, hs₂, hacc₂⟩ := accepts_adapted_iff.mp hacc'
  obtain rfl : s₁ = s₂ := Except.ok.inj (hs₁.symm.trans hs₂)
  obtain ⟨h, u, v, w, rfl, hh, hu, hv⟩ := exists_dhTuple_witness ht hfirst hne hacc₁ hacc₂
  cases s with
  | elGamalCommitted pk c1 c2 m =>
    obtain ⟨rfl, rfl, rfl⟩ := Statement.dhTuple.inj (Except.ok.inj hs₁)
    rw [exists_elGamalCommitted, SchnorrGroup.Faithful]
    exact SchnorrGroup.elGamal_iff hq hS hh hu hv
  | elGamalEncrypted pk c1 c2 m secret =>
    cases secret with
    | randomness =>
      obtain ⟨rfl, rfl, rfl⟩ := Statement.dhTuple.inj (Except.ok.inj hs₁)
      rw [exists_elGamalRandomness, SchnorrGroup.Faithful]
      exact SchnorrGroup.elGamal_iff hq hS hh hu hv
    | privateKey =>
      obtain ⟨rfl, rfl, rfl⟩ := Statement.dhTuple.inj (Except.ok.inj hs₁)
      rw [exists_elGamalPrivateKey, SchnorrGroup.Faithful]
      exact SchnorrGroup.elGamal_iff hq hS hh hu hv
  | _ => cases hs₁

/-- Two accepted challenges for a Pedersen value. -/
theorem pedersenValue_iff_faithful [hp : Fact S.p.Prime] (hq : S.q.Prime)
    (hS : S.hasPrimeOrder = true) (ht : 2 ^ t.bits < S.q) {s : Statement Nat}
    {run run' : Conversation} (hfirst : run.first = run'.first)
    (hne : run.challenge ≠ run'.challenge)
    (hacc : (adapted (.pedersenValue S.toPrimeGroup) (.leaf t (.dlog S.toPrimeGroup))).Accepts
      s run)
    (hacc' : (adapted (.pedersenValue S.toPrimeGroup) (.leaf t (.dlog S.toPrimeGroup))).Accepts
      s run') :
    (∃ w, (adapted (.pedersenValue S.toPrimeGroup) (.leaf t (.dlog S.toPrimeGroup))).Relates
      s w) ↔ S.Faithful s := by
  have := SchnorrGroup.lawful hp.out hq hS
  obtain ⟨s₁, hs₁, hacc₁⟩ := accepts_adapted_iff.mp hacc
  obtain ⟨s₂, hs₂, hacc₂⟩ := accepts_adapted_iff.mp hacc'
  obtain rfl : s₁ = s₂ := Except.ok.inj (hs₁.symm.trans hs₂)
  obtain ⟨w, hw⟩ :=
    specialSound_iff.mp (specialSound_group rfl ht) s₁ run run' hfirst hne hacc₁ hacc₂
  cases s with
  | pedersenValue h c x =>
    obtain rfl := Except.ok.inj hs₁
    cases hw with
    | @dlog _ _ w hw =>
    rw [exists_pedersenValue, SchnorrGroup.Faithful]
    exact SchnorrGroup.pedersen_iff hq hS hw
  | _ => cases hs₁

/-- If the verifiers of an ElGamal or Pedersen value accept one first message under two challenges,
the original statement has a witness if and only if it is faithful. -/
theorem relates_iff_faithful {p q g : Nat} (hS : SchnorrGroup.ofParameters p q g = .ok S)
    (hp : p.Prime) (hq : q.Prime) {P : Protocol Nat}
    (hP : elGamalValue S.toPrimeGroup t = .ok P ∨ pedersenValue S.toPrimeGroup t = .ok P)
    {v v' : Verifier Nat} (hv : v.protocol = P) (hv' : v'.protocol = P) {s : Statement Nat}
    {first z z' : Message} {e e' : Bytes} (hne : e ≠ e') (hacc : v.Accepts e s first z)
    (hacc' : v'.Accepts e' s first z') : (∃ w, P.Relates s w) ↔ S.Faithful s := by
  obtain ⟨rfl, hvalid⟩ := SchnorrGroup.ofParameters_eq_ok.mp hS
  have := Fact.mk hp
  have hrun : P.Accepts s ⟨first, e, z⟩ := (verifier_accepts_iff hv).mp hacc
  have hrun' : P.Accepts s ⟨first, e', z'⟩ := (verifier_accepts_iff hv').mp hacc'
  have hfirst : (Conversation.mk first e z).first = (Conversation.mk first e' z').first := rfl
  rcases hP with hP | hP
  · obtain ⟨rfl, ht, -⟩ := elGamalValue_eq_ok.mp hP
    exact elGamalValue_iff_faithful hq hvalid ht hfirst hne hrun hrun'
  · obtain ⟨rfl, ht, -⟩ := pedersenValue_eq_ok.mp hP
    exact pedersenValue_iff_faithful hq hvalid ht hfirst hne hrun hrun'

/-! ### Values that are no members -/

/-- The protocol for ElGamal values in the small group, with challenges of one byte. -/
def smallElGamal : Protocol Nat :=
  .adapted (.elGamalValue SchnorrGroup.small.toPrimeGroup)
    (.leaf smallSoundness (.dhTuple SchnorrGroup.small.toPrimeGroup))

theorem smallElGamal_eq_ok :
    elGamalValue SchnorrGroup.small.toPrimeGroup smallSoundness = .ok smallElGamal := by
  refine elGamalValue_eq_ok.mpr ⟨rfl, ?_, SchnorrGroup.small_isValid⟩
  show 2 ^ 8 < 1019
  norm_num

/-- The identity as first message, and the challenge as response. -/
theorem smallElGamal_accepts (c2 m : Nat)
    (h : SchnorrGroup.small.mul c2 (SchnorrGroup.small.inv m) = 4) :
    (Verifier.ofProtocol smallElGamal).Accepts [0] (.elGamalCommitted 4 4 c2 m)
        (.elementPair [0, 1] [0, 1]) (.integer 0) ∧
      (Verifier.ofProtocol smallElGamal).Accepts [1] (.elGamalCommitted 4 4 c2 m)
        (.elementPair [0, 1] [0, 1]) (.integer 1) := by
  have happly : (Conversion.elGamalValue SchnorrGroup.small.toPrimeGroup).apply
      (.elGamalCommitted 4 4 c2 m) = .ok (.dhTuple 4 4 4) :=
    congrArg (fun v => Except.ok (Statement.dhTuple 4 4 v)) h
  have h0 : DhTuple.accepts SchnorrGroup.small.toPrimeGroup 4 4 4 0 [0, 1] [0, 1] 0 = true := by
    decide +kernel
  have h1 : DhTuple.accepts SchnorrGroup.small.toPrimeGroup 4 4 4 1 [0, 1] [0, 1] 1 = true := by
    decide +kernel
  constructor
  · exact Verifier.accepts_iff.mpr ⟨rfl, bind_eq_ok.mpr ⟨_, asProtocolError_eq_ok.mpr happly,
      Leaf.verify_dhTuple.mpr ⟨_, _, _, _, _, _, rfl, rfl, rfl, h0⟩⟩⟩
  · exact Verifier.accepts_iff.mpr ⟨rfl, bind_eq_ok.mpr ⟨_, asProtocolError_eq_ok.mpr happly,
      Leaf.verify_dhTuple.mpr ⟨_, _, _, _, _, _, rfl, rfl, rfl, h1⟩⟩⟩

theorem relates_iff_faithful_small :
    (∃ w, smallElGamal.Relates (.elGamalCommitted 4 4 16 4) w) ↔
      SchnorrGroup.small.Faithful (.elGamalCommitted 4 4 16 4) :=
  have hacc := smallElGamal_accepts 16 4 (by decide +kernel)
  relates_iff_faithful
    (SchnorrGroup.ofParameters_eq_ok.mpr ⟨rfl, SchnorrGroup.small_hasPrimeOrder⟩) (by norm_num)
    (by norm_num) (.inl smallElGamal_eq_ok) (Verifier.protocol_ofProtocol _)
    (Verifier.protocol_ofProtocol _) (by decide) hacc.1 hacc.2

/-- The ciphertext `(4, 4)` is accepted as one of -1, which is no member of the group, although it
is none: `4 = 4 ^ w` and `4 = -1 * 4 ^ w` have no common solution. -/
theorem elGamalValue_not_sound :
    elGamalValue SchnorrGroup.small.toPrimeGroup smallSoundness = .ok smallElGamal ∧
      (Verifier.ofProtocol smallElGamal).Accepts [0] (.elGamalCommitted 4 4 4 2038)
        (.elementPair [0, 1] [0, 1]) (.integer 0) ∧
      (Verifier.ofProtocol smallElGamal).Accepts [1] (.elGamalCommitted 4 4 4 2038)
        (.elementPair [0, 1] [0, 1]) (.integer 1) ∧
      ¬ ∃ w, smallElGamal.Relates (.elGamalCommitted 4 4 4 2038) w := by
  obtain ⟨hacc, hacc'⟩ := smallElGamal_accepts 4 2038 (by decide +kernel)
  refine ⟨smallElGamal_eq_ok, hacc, hacc', ?_⟩
  rintro ⟨_, hw⟩
  cases hw with
  | elGamalCommitted h1 h2 =>
    have h2' : 4 = SchnorrGroup.small.mul 2038 4 := h2.trans (congrArg _ h1.symm)
    exact absurd h2' (by decide)

end Protocol

end SigmaProofs
