import SigmaProofs.Pedersen
import SigmaProofs.Proofs.DamgardJurik
import SigmaProofs.Proofs.Group.Schnorr
import SigmaProofs.Proofs.Tree

/-!
# What protocols prove, and of which statements

* `Protocol.Suits`: a protocol can be run on a statement. They have the same shape, group elements
  are members, ciphertexts are units, and keys are long enough. The statement may be false.
* `Protocol.Relates`: what a basic protocol proves, as the equations of its statement. Exponents,
  plaintexts and randomness are any numbers, and ciphertexts count as residues.
* `Protocol.Proves`: what a whole protocol proves.
-/

namespace SigmaProofs

variable {E : Type}

namespace Leaf

/-- The statements on which a basic protocol can be run. -/
inductive Suits (t : Soundness) : Leaf E → Statement E → Prop
  | dlog {G : PrimeGroup E} {h : E} (hh : G.isMember h = true) : Suits t (.dlog G) (.dlog h)
  | dhTuple {G : PrimeGroup E} {h u v : E} (hh : G.isMember h = true)
      (hu : G.isMember u = true) (hv : G.isMember v = true) :
      Suits t (.dhTuple G) (.dhTuple h u v)
  | dhExtended {G : PrimeGroup E} {bases powers : List E} (hne : bases ≠ [])
      (hlen : bases.length = powers.length) (hb : ∀ b ∈ bases, G.isMember b = true)
      (hp : ∀ p ∈ powers, G.isMember p = true) :
      Suits t (.dhExtended G) (.dhExtended bases powers)
  | opening {G : PrimeGroup E} {h c : E} (hh : G.isMember h = true)
      (hc : G.isMember c = true) : Suits t (.opening G) (.pedersenKnowledge h c)
  | encryptedZero {key : DamgardJurik.Key} {c : Nat} (hkey : key.requireLength t = .ok ())
      (hc : c.Coprime key.n) : Suits t .encryptedZero (.djZero key c)
  | product {key : DamgardJurik.Key} {c1 c2 c3 : Nat} (hkey : key.requireLength t = .ok ())
      (h1 : c1.Coprime key.n) (h2 : c2.Coprime key.n) (h3 : c3.Coprime key.n) :
      Suits t .product (.djProduct key c1 c2 c3)

/-- The statements and their witnesses, for the protocols that prove a statement as it is. -/
inductive Relates : Leaf E → Statement E → Witness → Prop
  | dlog {G : PrimeGroup E} {h : E} {w : Nat} (hw : h = G.powGenerator w) :
      Relates (.dlog G) (.dlog h) (.exponent w)
  | dhTuple {G : PrimeGroup E} {h u v : E} {w : Nat} (hu : u = G.powGenerator w)
      (hv : v = G.pow h w) : Relates (.dhTuple G) (.dhTuple h u v) (.exponent w)
  | dhExtended {G : PrimeGroup E} {bases powers : List E} {w : Nat}
      (hw : powers = bases.map (G.pow · w)) :
      Relates (.dhExtended G) (.dhExtended bases powers) (.exponent w)
  | opening {G : PrimeGroup E} {h c : E} {x r : Nat} (hc : c = Pedersen.commit G h x r) :
      Relates (.opening G) (.pedersenKnowledge h c) (.opening x r)
  | encryptedZero {key : DamgardJurik.Key} {c r : Nat} (hc : key.Encrypts c 0 r) :
      Relates .encryptedZero (.djZero key c) (.djRandomness r)
  | product {key : DamgardJurik.Key} {c1 c2 c3 x1 x2 r1 r2 r3 : Nat}
      (h1 : key.Encrypts c1 x1 r1) (h2 : key.Encrypts c2 x2 r2)
      (h3 : key.Encrypts c3 (x1 * x2) r3) :
      Relates .product (.djProduct key c1 c2 c3) (.djProduct x1 r1 r2 r3)

end Leaf

namespace Protocol

/-- The statements on which a protocol can be run. -/
inductive Suits : Protocol E → Statement E → Prop
  | leaf {t : Soundness} {l : Leaf E} {s : Statement E} (h : l.Suits t s) : Suits (.leaf t l) s
  | pedersenValue {t : Soundness} {G : PrimeGroup E} {h c : E} {x : Nat}
      (hh : G.isMember h = true) (hc : G.isMember c = true) :
      Suits (.adapted (.pedersenValue G) (.leaf t (.dlog G))) (.pedersenValue h c x)
  | elGamalKnowledge {t : Soundness} {G : PrimeGroup E} {h : E} (hh : G.isMember h = true) :
      Suits (.adapted .elGamalKnowledge (.leaf t (.dlog G))) (.elGamalKnowledge h)
  | elGamalCommitted {t : Soundness} {G : PrimeGroup E} {h c1 c2 m : E}
      (hh : G.isMember h = true) (h1 : G.isMember c1 = true) (h2 : G.isMember c2 = true)
      (hm : G.isMember m = true) :
      Suits (.adapted (.elGamalValue G) (.leaf t (.dhTuple G))) (.elGamalCommitted h c1 c2 m)
  | elGamalEncrypted {t : Soundness} {G : PrimeGroup E} {h c1 c2 m : E} {secret : ElGamalSecret}
      (hh : G.isMember h = true) (h1 : G.isMember c1 = true) (h2 : G.isMember c2 = true)
      (hm : G.isMember m = true) :
      Suits (.adapted (.elGamalValue G) (.leaf t (.dhTuple G)))
        (.elGamalEncrypted h c1 c2 m secret)
  | djValue {t : Soundness} {key : DamgardJurik.Key} {c x : Nat}
      (hkey : key.requireLength t = .ok ()) (hc : c.Coprime key.n) :
      Suits (.adapted .djValue (.leaf t .encryptedZero)) (.djValue key c x)
  | all {t : Soundness} {bs : List (Protocol E)} {ss : List (Statement E)}
      (hlen : bs.length = ss.length) (h : ∀ x ∈ bs.zip ss, Suits x.1 x.2) :
      Suits (.all t bs) (.all ss)
  | any {t : Soundness} {bs : List (Protocol E)} {ss : List (Statement E)}
      (hlen : bs.length = ss.length) (h : ∀ x ∈ bs.zip ss, Suits x.1 x.2) :
      Suits (.any t bs) (.any ss)

/-- The statements and their witnesses, for the protocols that are no compositions. -/
inductive Relates : Protocol E → Statement E → Witness → Prop
  | leaf {t : Soundness} {l : Leaf E} {s : Statement E} {w : Witness} (h : l.Relates s w) :
      Relates (.leaf t l) s w
  | pedersenValue {t : Soundness} {G : PrimeGroup E} {h c : E} {x r : Nat}
      (hc : c = Pedersen.commit G h x r) :
      Relates (.adapted (.pedersenValue G) (.leaf t (.dlog G))) (.pedersenValue h c x)
        (.exponent r)
  | elGamalKnowledge {t : Soundness} {G : PrimeGroup E} {h : E} {w : Nat}
      (hw : h = G.powGenerator w) :
      Relates (.adapted .elGamalKnowledge (.leaf t (.dlog G))) (.elGamalKnowledge h)
        (.exponent w)
  | elGamalCommitted {t : Soundness} {G : PrimeGroup E} {h c1 c2 m : E} {r : Nat}
      (h1 : c1 = G.powGenerator r) (h2 : c2 = G.mul m (G.pow h r)) :
      Relates (.adapted (.elGamalValue G) (.leaf t (.dhTuple G))) (.elGamalCommitted h c1 c2 m)
        (.exponent r)
  /-- The prover knows the randomness of the ciphertext. -/
  | elGamalRandomness {t : Soundness} {G : PrimeGroup E} {h c1 c2 m : E} {r : Nat}
      (h1 : c1 = G.powGenerator r) (h2 : c2 = G.mul m (G.pow h r)) :
      Relates (.adapted (.elGamalValue G) (.leaf t (.dhTuple G)))
        (.elGamalEncrypted h c1 c2 m .randomness) (.exponent r)
  /-- The prover knows the private key. -/
  | elGamalPrivateKey {t : Soundness} {G : PrimeGroup E} {h c1 c2 m : E} {w : Nat}
      (hw : h = G.powGenerator w) (h2 : c2 = G.mul m (G.pow c1 w)) :
      Relates (.adapted (.elGamalValue G) (.leaf t (.dhTuple G)))
        (.elGamalEncrypted h c1 c2 m .privateKey) (.exponent w)
  | djValue {t : Soundness} {key : DamgardJurik.Key} {c x r : Nat} (hc : key.Encrypts c x r) :
      Relates (.adapted .djValue (.leaf t .encryptedZero)) (.djValue key c x) (.djRandomness r)

/-- What a protocol proves: the statements and their witnesses. -/
abbrev Proves (P : Protocol E) (s : Statement E) (w : Witness) : Prop :=
  ComposedRelation Relates P s w

/-! ## A small tree -/

/-- Challenges of one byte. -/
def smallSoundness : Soundness := ⟨8, by decide, by decide⟩

/-- A proof for one of two statements, of which the second is about a discrete logarithm and a
public key. -/
def smallTree : Protocol Nat :=
  let t := smallSoundness
  let G := SchnorrGroup.small.toPrimeGroup
  .any t [.leaf t (.dhTuple G),
    .all t [.leaf t (.dlog G), .adapted .elGamalKnowledge (.leaf t (.dlog G))]]

/-- The first statement is false. -/
def smallStatement : Statement Nat :=
  .any [.dhTuple 16 4 4, .all [.dlog 64, .elGamalKnowledge 1024]]

def smallWitness : Witness := .any 1 (.all [.exponent 3, .exponent 5])

/-- The small group is large enough for challenges of one byte. -/
theorem small_admissible : ∀ G ∈ [SchnorrGroup.small.toPrimeGroup],
    2 ^ smallSoundness.bits < G.order ∧ G.isValid = true := by
  intro G hG
  obtain rfl := List.mem_singleton.mp hG
  refine ⟨?_, SchnorrGroup.small_isValid⟩
  show 2 ^ 8 < 1019
  norm_num

theorem smallTree_constructible : smallTree.Constructible := by
  refine constructible_any (Nat.le_refl 2) ?_
  rintro b (_ | ⟨_, _ | ⟨_, hb⟩⟩)
  · exact ⟨constructible_leaf small_admissible, rfl⟩
  · refine ⟨constructible_all (by decide) ?_, rfl⟩
    rintro b (_ | ⟨_, _ | ⟨_, hb⟩⟩)
    · exact ⟨constructible_leaf small_admissible, rfl⟩
    · exact ⟨.adapted _ (constructible_leaf small_admissible), rfl⟩
    · cases hb
  · cases hb

theorem smallTree_lawful : ∀ G ∈ smallTree.groups, G.Lawful := by
  intro G hG
  obtain rfl : G = SchnorrGroup.small.toPrimeGroup := by
    simpa [smallTree, groups, groupsOfAll, Leaf.group?, Conversion.group?] using hG
  exact SchnorrGroup.small_lawful

theorem smallTree_suits : smallTree.Suits smallStatement := by
  have hmem : ∀ a ∈ [4, 16, 64, 1024], SchnorrGroup.small.isMember a = true := by decide +kernel
  refine .any rfl ?_
  rintro x (_ | ⟨_, _ | ⟨_, hx⟩⟩)
  · exact .leaf (.dhTuple (hmem 16 (by decide)) (hmem 4 (by decide)) (hmem 4 (by decide)))
  · refine .all rfl ?_
    rintro x (_ | ⟨_, _ | ⟨_, hx⟩⟩)
    · exact .leaf (.dlog (hmem 64 (by decide)))
    · exact .elGamalKnowledge (hmem 1024 (by decide))
    · cases hx
  · cases hx

theorem smallTree_proves : smallTree.Proves smallStatement smallWitness := by
  have h3 : 64 = SchnorrGroup.small.pow 4 3 := by decide +kernel
  have h5 : 1024 = SchnorrGroup.small.pow 4 5 := by decide +kernel
  refine .any rfl rfl rfl (.all rfl rfl ?_)
  rintro x (_ | ⟨_, _ | ⟨_, hx⟩⟩)
  · exact .leaf (.leaf (.dlog h3))
  · exact .adapted (.elGamalKnowledge h5)
  · cases hx

end Protocol

end SigmaProofs
