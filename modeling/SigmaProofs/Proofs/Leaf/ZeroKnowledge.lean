import SigmaProofs.Proofs.Coupling
import SigmaProofs.Proofs.Leaf.Runs

/-!
# Provers and simulators of basic protocols send the same

For a fixed challenge, the response of a prover runs once through all values that its simulator may
draw. A simulator that draws this response solves its equation for the commitment of the prover.

* `Dlog.simulate_response` and so on: the simulated commitment is the one of the prover.
* `Leaf.coupled_simulateMessages`: the draws of the prover correspond to those of the simulator, so
  that both messages are the same.
-/

namespace SigmaProofs

variable {E : Type}

/-! ## Exponents -/

section Exponent

variable {G : PrimeGroup E} [G.Lawful]

namespace PrimeGroup

theorem Member.pow_exponentResponse_mul_negMod (a : G.Member) (r e w : Nat) :
    a ^ exponentResponse G.order r e w * (a ^ w) ^ negMod G.order e = a ^ r := by
  rw [pow_exponentResponse, pow_negMod, mul_inv_cancel_right]

/-- The commitment that fits the response of a prover is the one of the prover. -/
theorem fitting_response {base : E} (hb : G.isMember base = true) (r e w : Nat) :
    G.fitting base (G.pow base w) e (exponentResponse G.order r e w) =
      G.encode (G.pow base r) :=
  congrArg (fun a : G.Member => G.encode a.val)
    (Member.pow_exponentResponse_mul_negMod ⟨base, hb⟩ r e w)

end PrimeGroup

theorem Dlog.simulate_response (r e w : Nat) :
    simulate G (G.powGenerator w) e (exponentResponse G.order r e w) = commit G r :=
  congrArg Message.element (PrimeGroup.fitting_response PrimeGroup.Lawful.generator_mem r e w)

theorem DhTuple.simulate_response {h : E} (hh : G.isMember h = true) (r e w : Nat) :
    simulate G h (G.powGenerator w) (G.pow h w) e (exponentResponse G.order r e w) =
      commit G h r :=
  congrArg₂ Message.elementPair
    (PrimeGroup.fitting_response PrimeGroup.Lawful.generator_mem r e w)
    (PrimeGroup.fitting_response hh r e w)

theorem DhExtended.simulate_response {bases : List E} (hb : ∀ b ∈ bases, G.isMember b = true)
    (r e w : Nat) :
    simulate G bases (bases.map (G.pow · w)) e (exponentResponse G.order r e w) =
      commit G bases r := by
  unfold simulate commit
  rw [List.zipWith_map_right, List.zipWith_self]
  refine congrArg Message.multiple (List.map_congr_left fun base hbase => ?_)
  exact congrArg Message.element (PrimeGroup.fitting_response (hb base hbase) r e w)

theorem Opening.simulate_response {h : E} (hh : G.isMember h = true) (alpha beta e x r : Nat) :
    simulate G h (Pedersen.commit G h x r) e (exponentResponse G.order alpha e x)
      (exponentResponse G.order beta e r) = commit G h alpha beta := by
  have hm : ∀ a g : G.Member, a ^ exponentResponse G.order alpha e x *
      g ^ exponentResponse G.order beta e r * (g ^ r * a ^ x) ^ negMod G.order e =
      a ^ alpha * g ^ beta := fun a g => by
    rw [PrimeGroup.Member.pow_openingResponse, PrimeGroup.Member.pow_negMod, mul_inv_cancel_right]
  exact congrArg (fun a : G.Member => Message.element (G.encode a.val))
    (hm ⟨h, hh⟩ (.generator G))

end Exponent

/-! ## Ciphertexts -/

open DamgardJurik

variable {key : Key}

/-- The commitment that fits an accepted response is the accepted one. -/
theorem EncryptedZero.simulate_of_accepts {c e a z : Nat} (ha : a < key.ciphertextModulus)
    (h : accepts key c e a z = true) : simulate key c e z = .ok (.integer a) := by
  obtain ⟨hc, -, -, heq⟩ := accepts_iff.mp h
  obtain ⟨inverse, hok, hinv⟩ := Key.powNeg_eq_ok hc e
  have hcast : ((powMod z key.plaintextModulus key.ciphertextModulus * inverse %
      key.ciphertextModulus : Nat) : key.Ring) = a := by
    rw [ZMod.natCast_mod, Nat.cast_mul, cast_powMod, heq, mul_assoc,
      mul_comm _ (inverse : key.Ring), hinv, mul_one]
  rw [simulate_def, hok, Except.map, eq_of_cast (Nat.mod_lt _ key.ciphertextModulus_pos) ha hcast]

theorem EncryptedZero.simulate_response {c r rho : Nat} (hc : key.Encrypts c 0 r)
    (hu : c.Coprime key.n) (hrho : rho.Coprime key.n) (e : Nat) :
    simulate key c e (rho * powMod r e key.n % key.n) = .ok (commit key rho) :=
  simulate_of_accepts (powMod_lt key.ciphertextModulus_pos) (accepts_commit hc hu hrho e)

/-- The commitments that fit an accepted response are the accepted ones. -/
theorem Product.simulate_of_accepts {c1 c2 c3 e a1 a2 z1 z2 z3 : Nat}
    (ha1 : a1 < key.ciphertextModulus) (ha2 : a2 < key.ciphertextModulus)
    (h : accepts key c1 c2 c3 e a1 a2 z1 z2 z3 = true) :
    simulate key c1 c2 c3 e z1 z2 z3 = .ok (.productCommitment a1 a2) := by
  obtain ⟨hu, h1, h2⟩ := accepts_iff.mp h
  obtain ⟨inverse1, hok1, hinv1⟩ := Key.powNeg_eq_ok (hu c1 (by simp)) e
  obtain ⟨inverse3, hok3, hinv3⟩ := Key.powNeg_eq_ok (hu c3 (by simp)) e
  have hcast1 : ((key.encrypt z1 z2 * inverse1 % key.ciphertextModulus : Nat) : key.Ring) = a1 := by
    rw [ZMod.natCast_mod, Nat.cast_mul, Key.cast_encrypt, h1, mul_assoc,
      mul_comm _ (inverse1 : key.Ring), hinv1, mul_one]
  have hcast2 : ((powMod c2 z1 key.ciphertextModulus *
      powMod z3 key.plaintextModulus key.ciphertextModulus * inverse3 %
      key.ciphertextModulus : Nat) : key.Ring) = a2 := by
    rw [ZMod.natCast_mod, Nat.cast_mul, Nat.cast_mul, cast_powMod, cast_powMod, h2, mul_assoc,
      mul_comm _ (inverse3 : key.Ring), hinv3, mul_one]
  have hpos := key.ciphertextModulus_pos
  rw [simulate_def, hok1, hok3, ok_bind, ok_bind, eq_of_cast (Nat.mod_lt _ hpos) ha1 hcast1,
    eq_of_cast (Nat.mod_lt _ hpos) ha2 hcast2]
  rfl

/-! ## Basic protocols -/

namespace Leaf

/-- The simulator gives the messages of the prover. -/
def SameMessages (e : Nat) (committed : Except ConfigError (Pending × Message))
    (simulated : Except ConfigError (Message × Message)) : Prop :=
  ∃ pending first, committed = .ok (pending, first) ∧ simulated = .ok (first, pending.respond e)

/-- A prover with a witness and its simulator, for one challenge: what one of them draws corresponds
to what the other draws, and they send the same. -/
theorem coupled_simulateMessages {l : Leaf E} {t : Soundness} {s : Statement E} {w : Witness}
    (hG : ∀ G ∈ l.group?.toList, G.Lawful) (hs : l.Suits t s) (hw : l.Relates s w) (e : Nat) :
    Sampling.Coupled (SameMessages e) (l.commit t ⟨s, w⟩) (l.simulateMessages t s e) := by
  cases hs with
  | @dlog G h hh =>
    cases hw with
    | @dlog _ _ w hw =>
    subst hw
    have := hG G (by simp [group?])
    have hq := (PrimeGroup.Lawful.order_prime (G := G)).pos
    refine (Sampling.coupled_add hq (e * w)).bind ?_
    rintro r _ ⟨rfl, -⟩
    refine Sampling.coupled_pure ⟨_, _, rfl, ?_⟩
    exact congrArg (fun first => Except.ok (first, _)) (Dlog.simulate_response r e w)
  | @dhTuple G h u v hh hu hv =>
    cases hw with
    | @dhTuple _ _ _ _ w hwu hwv =>
    subst hwu hwv
    have := hG G (by simp [group?])
    have hq := (PrimeGroup.Lawful.order_prime (G := G)).pos
    refine (Sampling.coupled_add hq (e * w)).bind ?_
    rintro r _ ⟨rfl, -⟩
    refine Sampling.coupled_pure ⟨_, _, rfl, ?_⟩
    exact congrArg (fun first => Except.ok (first, _)) (DhTuple.simulate_response hh r e w)
  | @dhExtended G bases powers hne hlen hb hp =>
    cases hw with
    | @dhExtended _ _ _ w hw =>
    subst hw
    have := hG G (by simp [group?])
    have hq := (PrimeGroup.Lawful.order_prime (G := G)).pos
    simp only [commit, simulateMessages, Statement.expectDhExtended_eq_ok.mpr ⟨rfl, hne, hlen⟩,
      Witness.expectExponent]
    refine (Sampling.coupled_add hq (e * w)).bind ?_
    rintro r _ ⟨rfl, -⟩
    refine Sampling.coupled_pure ⟨_, _, rfl, ?_⟩
    exact congrArg (fun first => Except.ok (first, _)) (DhExtended.simulate_response hb r e w)
  | @opening G h c hh hc =>
    cases hw with
    | @opening _ _ _ x r hx =>
    subst hx
    have := hG G (by simp [group?])
    have hq := (PrimeGroup.Lawful.order_prime (G := G)).pos
    refine (Sampling.coupled_add hq (e * x)).bind ?_
    rintro alpha _ ⟨rfl, -⟩
    refine (Sampling.coupled_add hq (e * r)).bind ?_
    rintro beta _ ⟨rfl, -⟩
    refine Sampling.coupled_pure ⟨_, _, rfl, ?_⟩
    exact congrArg (fun first => Except.ok (first, _))
      (Opening.simulate_response hh alpha beta e x r)
  | @encryptedZero key c hkey hc =>
    cases hw with
    | @encryptedZero _ _ r hr =>
    have hunit := powMod_coprime (hr.coprime hc) e
    rw [commit_encryptedZero hkey, simulateMessages_encryptedZero hkey]
    refine (Sampling.coupled_mul key.one_lt_n hunit).bind ?_
    rintro rho _ ⟨rfl, hrho⟩
    refine Sampling.coupled_pure ⟨_, _, rfl, ?_⟩
    rw [EncryptedZero.simulate_response hr hc hrho]
    rfl
  | @product key c1 c2 c3 hkey h1 h2 h3 =>
    cases hw with
    | @product _ _ _ _ x1 x2 r1 r2 r3 hr1 hr2 hr3 =>
    have hn := key.n_pos
    obtain ⟨r, hr, hmod⟩ := Product.quotientRandomness_eq_ok hn (hr2.coprime h2) x1 r3
    rw [commit_product hkey c1 c2 c3 hr, simulateMessages_product hkey]
    refine (Sampling.coupled_add key.plaintextModulus_pos (e * x1)).bind ?_
    rintro d _ ⟨rfl, -⟩
    refine (Sampling.coupled_mul key.one_lt_n (powMod_coprime (hr1.coprime h1) e)).bind ?_
    rintro rho _ ⟨rfl, hrho⟩
    -- the response adds the power of `c2` by the quotient, which the first draw determines
    have hunit := (powMod_coprime (Product.quotient_coprime hmod (hr3.coprime h3)) e).mul_left
      (powMod_coprime (coprime_of_modEq (Nat.mod_modEq c2 key.n) h2)
        ((d + e * x1) / key.plaintextModulus))
    refine (Sampling.coupled_mul key.one_lt_n hunit).bind ?_
    rintro rhoBar _ ⟨rfl, hrhoBar⟩
    refine Sampling.coupled_pure ⟨_, _, rfl, ?_⟩
    have hacc := Product.accepts_commit (d := d) hr1 hr2 hr3 h1 h2 h3 hmod hrho hrhoBar e
    rw [← Nat.mul_assoc, Product.simulate_of_accepts (Key.encrypt_lt d rho)
      (Nat.mod_lt _ key.ciphertextModulus_pos) hacc]
    rfl

end Leaf

end SigmaProofs
