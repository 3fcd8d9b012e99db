import SigmaProofs.Proofs.DamgardJurik.Exact
import SigmaProofs.Proofs.Leaf.Ciphertext
import SigmaProofs.Proofs.Leaf.Exponent
import SigmaProofs.Proofs.Relation

/-!
# Runs of basic protocols

* `Leaf.commit_encryptedZero` and so on: the parties of proofs about ciphertexts, with a key that is
  long enough.
* `Leaf.verify_dlog` and so on: a verdict is positive if the statement and the messages have the
  expected forms and their equation holds. Then the statement suits the protocol
  (`Leaf.suits_of_verify`).
* `Leaf.commit_accepted`: a prover with a witness is accepted, whatever it draws and whatever the
  challenge is.
* `Leaf.simulateMessages_accepted`, `Leaf.simulate_accepted`: so is a simulator, also for a false
  statement, if it knows the challenge beforehand.
-/

namespace SigmaProofs.Leaf

variable {E : Type}

/-! ## Proofs about ciphertexts, with a key that is long enough -/

section Ciphertexts

variable {t : Soundness} {key : DamgardJurik.Key} (hkey : key.requireLength t = .ok ())

include hkey

theorem commit_encryptedZero (c r : Nat) :
    (encryptedZero : Leaf E).commit t ⟨.djZero key c, .djRandomness r⟩ = (do
      let rho ← key.drawUnit
      return .ok (.encryptedZero key.n rho r, EncryptedZero.commit key rho)) := by
  simp only [commit_encryptedZero_def, EncryptedZero.proverInput, Statement.expectDjZero,
    Witness.expectDjRandomness, hkey, ok_bind, pure_eq_ok]

theorem commit_product (c1 c2 c3 : Nat) {x1 r1 r2 r3 r : Nat}
    (hr : Product.quotientRandomness key.n x1 r2 r3 = .ok r) :
    (product : Leaf E).commit t ⟨.djProduct key c1 c2 c3, .djProduct x1 r1 r2 r3⟩ = (do
      let d ← Sampling.drawBelow key.plaintextModulus
      let rho ← key.drawUnit
      let rhoBar ← key.drawUnit
      return .ok (.product key c2 d rho rhoBar x1 r1 r, Product.commit key c2 d rho rhoBar)) := by
  simp only [commit_product_def, Product.proverInput, Statement.expectDjProduct,
    Witness.expectDjProduct, hkey, ok_bind, pure_eq_ok, hr]

theorem simulateMessages_encryptedZero (c e : Nat) :
    (encryptedZero : Leaf E).simulateMessages t (.djZero key c) e = (do
      let z ← key.drawUnit
      return (EncryptedZero.simulate key c e z).map (·, .integer z)) := by
  simp only [simulateMessages_encryptedZero_def, EncryptedZero.simulatorInput,
    Statement.expectDjZero, hkey, ok_bind, pure_eq_ok]

theorem simulateMessages_product (c1 c2 c3 e : Nat) :
    (product : Leaf E).simulateMessages t (.djProduct key c1 c2 c3) e = (do
      let z1 ← Sampling.drawBelow key.plaintextModulus
      let z2 ← key.drawUnit
      let z3 ← key.drawUnit
      return (Product.simulate key c1 c2 c3 e z1 z2 z3).map (·, .productResponse z1 z2 z3)) := by
  simp only [simulateMessages_product_def, Product.simulatorInput, Statement.expectDjProduct,
    hkey, ok_bind, pure_eq_ok]

end Ciphertexts

variable [DecidableEq E]

/-! ## Verdicts -/

theorem verify_dlog {G : PrimeGroup E} {t : Soundness} {c : Bytes} {s : Statement E}
    {first second : Message} : (dlog G).verify t c s first second = .ok true ↔
      ∃ h a z, s = .dlog h ∧ first = .element a ∧ second = .integer z ∧
        Dlog.accepts G h (challengeNumber c) a z = true := by
  unfold verify
  constructor
  · intro h
    obtain ⟨h', hs, h₁⟩ := bind_eq_ok.mp h
    obtain ⟨a, ha, h₂⟩ := bind_eq_ok.mp h₁
    obtain ⟨z, hz, h₃⟩ := bind_eq_ok.mp h₂
    rw [asProtocolError_eq_ok, Statement.expectDlog_eq_ok] at hs
    rw [Message.expectElement_eq_ok] at ha
    rw [Message.expectInteger_eq_ok] at hz
    exact ⟨h', a, z, hs, ha, hz, Except.ok.inj h₃⟩
  · rintro ⟨h', a, z, rfl, rfl, rfl, h⟩
    exact congrArg Except.ok h

theorem verify_dhTuple {G : PrimeGroup E} {t : Soundness} {c : Bytes} {s : Statement E}
    {first second : Message} : (dhTuple G).verify t c s first second = .ok true ↔
      ∃ h u v a b z, s = .dhTuple h u v ∧ first = .elementPair a b ∧ second = .integer z ∧
        DhTuple.accepts G h u v (challengeNumber c) a b z = true := by
  unfold verify
  constructor
  · intro h
    obtain ⟨⟨h', u, v⟩, hs, h₁⟩ := bind_eq_ok.mp h
    obtain ⟨⟨a, b⟩, hab, h₂⟩ := bind_eq_ok.mp h₁
    obtain ⟨z, hz, h₃⟩ := bind_eq_ok.mp h₂
    rw [asProtocolError_eq_ok, Statement.expectDhTuple_eq_ok] at hs
    rw [Message.expectElementPair_eq_ok] at hab
    rw [Message.expectInteger_eq_ok] at hz
    exact ⟨h', u, v, a, b, z, hs, hab, hz, Except.ok.inj h₃⟩
  · rintro ⟨h', u, v, a, b, z, rfl, rfl, rfl, h⟩
    exact congrArg Except.ok h

theorem verify_dhExtended {G : PrimeGroup E} {t : Soundness} {c : Bytes} {s : Statement E}
    {first second : Message} : (dhExtended G).verify t c s first second = .ok true ↔
      ∃ bases powers commitments z, s = .dhExtended bases powers ∧ first = .multiple commitments ∧
        second = .integer z ∧ bases ≠ [] ∧ bases.length = powers.length ∧
        commitments.length = bases.length ∧
        DhExtended.accepts G (challengeNumber c) z bases powers commitments = .ok true := by
  unfold verify
  constructor
  · intro h
    obtain ⟨⟨bases, powers⟩, hs, h₁⟩ := bind_eq_ok.mp h
    obtain ⟨commitments, hfirst, h₂⟩ := bind_eq_ok.mp h₁
    obtain ⟨z, hz, h₃⟩ := bind_eq_ok.mp h₂
    rw [asProtocolError_eq_ok, Statement.expectDhExtended_eq_ok] at hs
    rw [Message.expectMultiple_eq_ok] at hfirst
    rw [Message.expectInteger_eq_ok] at hz
    split at h₃
    next => cases h₃
    next hcount =>
      exact ⟨bases, powers, commitments, z, hs.1, hfirst, hz, hs.2.1, hs.2.2, not_not.mp hcount, h₃⟩
  · rintro ⟨bases, powers, commitments, z, rfl, rfl, rfl, hne, hlen, hcount, h⟩
    rw [Statement.expectDhExtended_eq_ok.mpr ⟨rfl, hne, hlen⟩]
    simpa [Message.expectMultiple, Message.expectInteger, hcount] using h

theorem verify_opening {G : PrimeGroup E} {t : Soundness} {c : Bytes} {s : Statement E}
    {first second : Message} : (opening G).verify t c s first second = .ok true ↔
      ∃ h commitment a u v, s = .pedersenKnowledge h commitment ∧ first = .element a ∧
        second = .opening u v ∧
        Opening.accepts G h commitment (challengeNumber c) a u v = true := by
  unfold verify
  constructor
  · intro h
    obtain ⟨⟨h', commitment⟩, hs, h₁⟩ := bind_eq_ok.mp h
    obtain ⟨a, ha, h₂⟩ := bind_eq_ok.mp h₁
    obtain ⟨⟨u, v⟩, hz, h₃⟩ := bind_eq_ok.mp h₂
    rw [asProtocolError_eq_ok, Statement.expectPedersenKnowledge_eq_ok] at hs
    rw [Message.expectElement_eq_ok] at ha
    rw [Message.expectOpening_eq_ok] at hz
    exact ⟨h', commitment, a, u, v, hs, ha, hz, Except.ok.inj h₃⟩
  · rintro ⟨h', commitment, a, u, v, rfl, rfl, rfl, h⟩
    exact congrArg Except.ok h

theorem verify_encryptedZero {t : Soundness} {c : Bytes} {s : Statement E}
    {first second : Message} : encryptedZero.verify t c s first second = .ok true ↔
      ∃ key ciphertext a z, s = .djZero key ciphertext ∧ first = .integer a ∧
        second = .integer z ∧ key.requireLength t = .ok () ∧
        EncryptedZero.accepts key ciphertext (challengeNumber c) a z = true := by
  rw [verify_encryptedZero_def]
  constructor
  · intro h
    obtain ⟨_, hinput, hacc⟩ := bind_eq_ok.mp h
    obtain ⟨⟨key, ciphertext⟩, hs, h₁⟩ := bind_eq_ok.mp hinput
    obtain ⟨_, hkey, h₂⟩ := bind_eq_ok.mp h₁
    obtain ⟨a, ha, h₃⟩ := bind_eq_ok.mp h₂
    obtain ⟨z, hz, h₄⟩ := bind_eq_ok.mp h₃
    rw [asProtocolError_eq_ok, Statement.expectDjZero_eq_ok] at hs
    rw [Message.expectInteger_eq_ok] at ha hz
    obtain rfl := Except.ok.inj h₄
    exact ⟨key, ciphertext, a, z, hs, ha, hz, asProtocolError_eq_ok.mp hkey, Except.ok.inj hacc⟩
  · rintro ⟨key, ciphertext, a, z, rfl, rfl, rfl, hkey, h⟩
    simp only [EncryptedZero.verifierInput, Statement.expectDjZero, hkey, asProtocolError_ok,
      ok_bind]
    exact congrArg Except.ok h

theorem verify_product {t : Soundness} {c : Bytes} {s : Statement E} {first second : Message} :
    product.verify t c s first second = .ok true ↔
      ∃ key c1 c2 c3 a1 a2 z1 z2 z3, s = .djProduct key c1 c2 c3 ∧
        first = .productCommitment a1 a2 ∧ second = .productResponse z1 z2 z3 ∧
        key.requireLength t = .ok () ∧
        Product.accepts key c1 c2 c3 (challengeNumber c) a1 a2 z1 z2 z3 = true := by
  rw [verify_product_def]
  constructor
  · intro h
    obtain ⟨_, hinput, hacc⟩ := bind_eq_ok.mp h
    obtain ⟨⟨key, c1, c2, c3⟩, hs, h₁⟩ := bind_eq_ok.mp hinput
    obtain ⟨_, hkey, h₂⟩ := bind_eq_ok.mp h₁
    obtain ⟨⟨a1, a2⟩, ha, h₃⟩ := bind_eq_ok.mp h₂
    obtain ⟨⟨z1, z2, z3⟩, hz, h₄⟩ := bind_eq_ok.mp h₃
    rw [asProtocolError_eq_ok, Statement.expectDjProduct_eq_ok] at hs
    rw [Message.expectProductCommitment_eq_ok] at ha
    rw [Message.expectProductResponse_eq_ok] at hz
    obtain rfl := Except.ok.inj h₄
    exact ⟨key, c1, c2, c3, a1, a2, z1, z2, z3, hs, ha, hz, asProtocolError_eq_ok.mp hkey,
      Except.ok.inj hacc⟩
  · rintro ⟨key, c1, c2, c3, a1, a2, z1, z2, z3, rfl, rfl, rfl, hkey, h⟩
    simp only [Product.verifierInput, Statement.expectDjProduct, hkey, asProtocolError_ok, ok_bind]
    exact congrArg Except.ok h

/-- The statement of an accepted run suits the protocol. -/
theorem suits_of_verify {l : Leaf E} {t : Soundness} {c : Bytes} {s : Statement E}
    {first second : Message} (h : l.verify t c s first second = .ok true) : l.Suits t s := by
  cases l with
  | dlog G =>
    obtain ⟨h, a, z, rfl, -, -, hacc⟩ := verify_dlog.mp h
    obtain ⟨-, -, hh, -⟩ := Dlog.accepts_iff.mp hacc
    exact .dlog hh
  | dhTuple G =>
    obtain ⟨h, u, v, a, b, z, rfl, -, -, hacc⟩ := verify_dhTuple.mp h
    obtain ⟨-, -, -, -, hh, hu, hv, -⟩ := DhTuple.accepts_iff.mp hacc
    exact .dhTuple hh hu hv
  | dhExtended G =>
    obtain ⟨bases, powers, commitments, z, rfl, -, -, hne, hlen, hcount, hacc⟩ :=
      verify_dhExtended.mp h
    obtain ⟨hb, hp⟩ := DhExtended.forall_mem_of_accepts hlen hcount hacc
    exact .dhExtended hne hlen hb hp
  | opening G =>
    obtain ⟨h, commitment, a, u, v, rfl, -, -, hacc⟩ := verify_opening.mp h
    obtain ⟨-, -, hh, hc, -⟩ := Opening.accepts_iff.mp hacc
    exact .opening hh hc
  | encryptedZero =>
    obtain ⟨key, ciphertext, a, z, rfl, -, -, hkey, hacc⟩ := verify_encryptedZero.mp h
    exact .encryptedZero hkey (EncryptedZero.accepts_iff.mp hacc).1
  | product =>
    obtain ⟨key, c1, c2, c3, a1, a2, z1, z2, z3, rfl, -, -, hkey, hacc⟩ := verify_product.mp h
    have hu := (Product.accepts_iff.mp hacc).1
    exact .product hkey (hu c1 (by simp)) (hu c2 (by simp)) (hu c3 (by simp))

/-! ## Provers and simulators -/

/-- A prover with a witness is accepted. -/
theorem commit_accepted {l : Leaf E} {t : Soundness} {s : Statement E} {w : Witness}
    (hG : ∀ G ∈ l.group?.toList, G.Lawful) (hs : l.Suits t s) (hw : l.Relates s w) :
    (l.commit t ⟨s, w⟩).Always fun result => ∃ pending first, result = .ok (pending, first) ∧
      ∀ c, l.verify t c s first (pending.respond (challengeNumber c)) = .ok true := by
  cases hs with
  | @dlog G h hh =>
    cases hw with
    | @dlog _ _ w hw =>
    subst hw
    have := hG G (by simp [group?])
    intro r _
    refine ⟨_, _, rfl, fun c => ?_⟩
    exact congrArg Except.ok (Dlog.accepts_commit r (challengeNumber c) w)
  | @dhTuple G h u v hh hu hv =>
    cases hw with
    | @dhTuple _ _ _ _ w hwu hwv =>
    subst hwu hwv
    have := hG G (by simp [group?])
    intro r _
    refine ⟨_, _, rfl, fun c => ?_⟩
    exact congrArg Except.ok (DhTuple.accepts_commit hh r (challengeNumber c) w)
  | @dhExtended G bases powers hne hlen hb hp =>
    cases hw with
    | @dhExtended _ _ _ w hw =>
    subst hw
    have := hG G (by simp [group?])
    simp only [commit, Statement.expectDhExtended_eq_ok.mpr ⟨rfl, hne, hlen⟩,
      Witness.expectExponent]
    intro r _
    refine ⟨_, _, rfl, fun c => ?_⟩
    exact verify_dhExtended.mpr ⟨_, _, _, _, rfl, rfl, rfl, hne, hlen, by simp,
      DhExtended.accepts_commit hb r (challengeNumber c) w⟩
  | @opening G h c hh hc =>
    cases hw with
    | @opening _ _ _ x r hx =>
    subst hx
    have := hG G (by simp [group?])
    intro alpha _ beta _
    refine ⟨_, _, rfl, fun c => ?_⟩
    exact congrArg Except.ok (Opening.accepts_commit hh alpha beta (challengeNumber c) x r)
  | @encryptedZero key c hkey hc =>
    cases hw with
    | @encryptedZero _ _ r hr =>
    rw [commit_encryptedZero hkey]
    intro rho hrho
    refine ⟨_, _, rfl, fun e => ?_⟩
    exact verify_encryptedZero.mpr ⟨_, _, _, _, rfl, rfl, rfl, hkey,
      EncryptedZero.accepts_commit hr hc hrho.2.2 (challengeNumber e)⟩
  | @product key c1 c2 c3 hkey h1 h2 h3 =>
    cases hw with
    | @product _ _ _ _ x1 x2 r1 r2 r3 hr1 hr2 hr3 =>
    have hn := key.n_pos
    obtain ⟨r, hr, hmod⟩ := Product.quotientRandomness_eq_ok hn (hr2.coprime h2) x1 r3
    rw [commit_product hkey c1 c2 c3 hr]
    intro d _ rho hrho rhoBar hrhoBar
    refine ⟨_, _, rfl, fun e => ?_⟩
    exact verify_product.mpr ⟨_, _, _, _, _, _, _, _, _, rfl, rfl, rfl, hkey,
      Product.accepts_commit hr1 hr2 hr3 h1 h2 h3 hmod hrho.2.2 hrhoBar.2.2 (challengeNumber e)⟩

/-- A simulated run is accepted under its challenge. -/
theorem simulateMessages_accepted {l : Leaf E} {t : Soundness} {s : Statement E}
    (hG : ∀ G ∈ l.group?.toList, G.Lawful) (hs : l.Suits t s) (c : Bytes) :
    (l.simulateMessages t s (challengeNumber c)).Always fun result =>
      ∃ first second, result = .ok (first, second) ∧
        l.verify t c s first second = .ok true := by
  cases hs with
  | @dlog G h hh =>
    have := hG G (by simp [group?])
    intro z _
    exact ⟨_, _, rfl, congrArg Except.ok (Dlog.accepts_simulate hh (challengeNumber c) z)⟩
  | @dhTuple G h u v hh hu hv =>
    have := hG G (by simp [group?])
    intro z _
    exact ⟨_, _, rfl,
      congrArg Except.ok (DhTuple.accepts_simulate hh hu hv (challengeNumber c) z)⟩
  | @dhExtended G bases powers hne hlen hb hp =>
    have := hG G (by simp [group?])
    simp only [simulateMessages, Statement.expectDhExtended_eq_ok.mpr ⟨rfl, hne, hlen⟩]
    intro z _
    exact ⟨_, _, rfl, verify_dhExtended.mpr ⟨_, _, _, _, rfl, rfl, rfl, hne, hlen, by simp [hlen],
      DhExtended.accepts_simulate hb hp hlen (challengeNumber c) z⟩⟩
  | @opening G h c' hh hc =>
    have := hG G (by simp [group?])
    intro u _ v _
    exact ⟨_, _, rfl,
      congrArg Except.ok (Opening.accepts_simulate hh hc (challengeNumber c) u v)⟩
  | @encryptedZero key c' hkey hc =>
    rw [simulateMessages_encryptedZero hkey]
    intro z hz
    obtain ⟨a, hsim, hacc⟩ := EncryptedZero.accepts_simulate hc hz.2.2 (challengeNumber c)
    exact ⟨.integer a, .integer z, by rw [hsim]; rfl,
      verify_encryptedZero.mpr ⟨_, _, _, _, rfl, rfl, rfl, hkey, hacc⟩⟩
  | @product key c1 c2 c3 hkey h1 h2 h3 =>
    rw [simulateMessages_product hkey]
    intro z1 _ z2 hz2 z3 hz3
    obtain ⟨a1, a2, hsim, hacc⟩ :=
      Product.accepts_simulate h1 h2 h3 hz2.2.2 hz3.2.2 (challengeNumber c) z1
    exact ⟨.productCommitment a1 a2, .productResponse z1 z2 z3, by rw [hsim]; rfl,
      verify_product.mpr ⟨_, _, _, _, _, _, _, _, _, rfl, rfl, rfl, hkey, hacc⟩⟩

/-- A simulator gives a run with the challenge that it was given, and the run is accepted. -/
theorem simulate_accepted {l : Leaf E} {t : Soundness} {s : Statement E} {c : Bytes}
    (hG : ∀ G ∈ l.group?.toList, G.Lawful) (hs : l.Suits t s) (hc : c.length = t.byteLength) :
    (l.simulate t s c).Always fun result => ∃ run, result = .ok run ∧ run.challenge = c ∧
      l.verify t c s run.first run.second = .ok true := by
  simp only [simulate, requireChallenge_ok hc, Sampling.always_bind]
  refine (simulateMessages_accepted hG hs c).mono ?_
  rintro _ ⟨first, second, rfl, hv⟩
  exact ⟨⟨first, c, second⟩, rfl, rfl, hv⟩

end SigmaProofs.Leaf
