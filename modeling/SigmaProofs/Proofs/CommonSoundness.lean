import SigmaProofs.Proofs.ChallengeOps.Prover
import SigmaProofs.Proofs.ChallengeOps.Verifier
import SigmaProofs.Proofs.Relation

/-!
# One soundness parameter in a tree

Compositions check that their branches have a common soundness parameter when they are put
together. All lengths follow from this: those of the challenges that are drawn, that are simulated,
that are kept between two messages, and that a verifier gets in a message. So it makes no difference
what becomes of two strings that are not both challenges of the right length, or of a challenge that
a branch refuses: all operations that are exact on challenges (`ChallengeOps.ExactOn`) do the same,
also those that fail there (`ChallengeOps.guarded`).

* `Protocol.OneSoundness`, `Prover.OneSoundness`, `Verifier.OneSoundness`: all parts of a tree have
  the parameter of its root, and everything that is done with it is the same for all exact
  operations.
* `one_soundness_throughout`: so it is for all simulators, provers and verifiers that can be
  obtained.
-/

namespace SigmaProofs

variable {E : Type}

/-- One soundness parameter in a simulator. Whatever its statement and its challenge are, and
whatever it draws, two strings that it adds up have both the length of a challenge. -/
structure Protocol.OneSoundness (P : Protocol E) : Prop where
  parts : ∀ Q : Protocol E, Q.PartOf P → Q.soundness = P.soundness
  simulateWith : ∀ ops : ChallengeOps, ops.ExactOn P.soundness → ∀ (s : Statement E) (c : Bytes),
    Sampling.AgreesWith (P.simulateWith s c ops) (P.simulateWith s c)
  simulate : ∀ ops : ChallengeOps, ops.ExactOn P.soundness → ∀ s : Statement E,
    Sampling.AgreesWith (P.simulate s ops) (P.simulate s)

/-- One soundness parameter in a prover and in the simulators of its parts. Whatever the calls are,
two strings that are added up have both the length of a challenge. -/
structure Prover.OneSoundness (p : Prover E) : Prop where
  parts : ∀ q : Prover E, q.PartOf p → q.soundness = p.soundness
  simulators : ∀ q : Prover E, q.PartOf p →
    q.protocol.soundness = p.soundness ∧ q.protocol.OneSoundness
  run : ∀ ops : ChallengeOps, ops.ExactOn p.soundness → ∀ calls : List (Prover.Call E),
    Sampling.AgreesWith (p.run calls ops) (p.run calls)
  /-- The shares that wait for a response, anywhere in the tree, are challenges. -/
  shares : ∀ calls : List (Prover.Call E),
    (p.run calls).Always fun (_, p') => p'.SharesFit p.soundness

/-- One soundness parameter in a verifier. Whatever the calls are, two strings that are added up
have both the length of a challenge, and the branches of compositions take the challenges that they
get. -/
structure Verifier.OneSoundness [DecidableEq E] (v : Verifier E) : Prop where
  parts : ∀ w : Verifier E, w.PartOf v → w.soundness = v.soundness
  run : ∀ ops : ChallengeOps, ops.ExactOn v.soundness → ∀ calls : List (Verifier.Call E),
    Sampling.AgreesWith (v.run calls ops) (v.run calls)

theorem Protocol.Uniform.oneSoundness {t : Soundness} {P : Protocol E} (hP : P.Uniform t) :
    P.OneSoundness where
  parts _ hQ := (hQ.uniform hP).soundness_eq.trans hP.soundness_eq.symm
  simulateWith _ hops s c := Protocol.simulateWith_agreesWith (hP.soundness_eq ▸ hP) hops s c
  simulate _ hops s := Protocol.simulate_agreesWith (hP.soundness_eq ▸ hP) hops s

theorem Prover.Obtainable.oneSoundness {p : Prover E} (h : p.Obtainable) : p.OneSoundness where
  parts q hq := by
    rw [← q.soundness_protocol]
    exact (hq.protocol.uniform h.fits.uniform).soundness_eq
  simulators q hq :=
    have hQ := hq.protocol.uniform h.fits.uniform
    ⟨hQ.soundness_eq, hQ.oneSoundness⟩
  run _ hops calls := Prover.run_agreesWith h.fits hops calls
  shares calls := (h.fits.run calls).mono fun _ hfits => hfits.shares

variable [DecidableEq E]

theorem Verifier.Obtainable.oneSoundness {v : Verifier E} (h : v.Obtainable) :
    v.OneSoundness where
  parts w hw := by
    rw [← w.soundness_protocol]
    exact (hw.protocol.uniform h.fits.uniform).soundness_eq
  run _ hops calls := Verifier.run_agreesWith h.fits hops calls

/-! ## Compositions of used branches -/

namespace Protocol

/-- A proof of knowledge of a discrete logarithm in the small group. -/
def smallLeaf : Protocol Nat :=
  .leaf smallSoundness (.dlog SchnorrGroup.small.toPrimeGroup)

theorem smallLeaf_constructible : smallLeaf.Constructible :=
  constructible_leaf small_admissible

end Protocol

/-- A composition with a branch that has sent its first message, in which it has drawn 5. -/
def Prover.smallComposed : Prover Nat :=
  let committed := (((ofProtocol Protocol.smallLeaf).step (.commit ⟨.dlog 64, .exponent 3⟩)).result
    ⟨⟨5, by show 5 < 1019; decide⟩, ()⟩).2
  .any Protocol.smallSoundness none [committed, .ofProtocol Protocol.smallLeaf]

theorem Prover.smallComposed_obtainable : smallComposed.Obtainable := by
  have hnew : (ofProtocol Protocol.smallLeaf).Obtainable :=
    .ofProtocol Protocol.smallLeaf_constructible
  refine .anyOf ?_ (anyOf_eq_ok.mpr ⟨_, rfl, Nat.le_refl 2, ?_⟩)
  · rintro b (_ | ⟨_, _ | ⟨_, hb⟩⟩)
    · exact hnew.called _ _
    · exact hnew
    · cases hb
  · rintro b (_ | ⟨_, _ | ⟨_, hb⟩⟩)
    · rfl
    · rfl
    · cases hb

/-- A composition with a branch that holds a challenge. -/
def Verifier.smallComposed : Verifier Nat :=
  let holding := (((ofProtocol Protocol.smallLeaf).step (.keep [200])).result ()).2
  .any (.empty Protocol.smallSoundness) [holding, .ofProtocol Protocol.smallLeaf]

theorem Verifier.smallComposed_obtainable : smallComposed.Obtainable := by
  have hnew : (ofProtocol Protocol.smallLeaf).Obtainable :=
    .ofProtocol Protocol.smallLeaf_constructible
  refine .anyOf ?_ (anyOf_eq_ok.mpr ⟨_, rfl, Nat.le_refl 2, ?_⟩)
  · rintro b (_ | ⟨_, _ | ⟨_, hb⟩⟩)
    · exact hnew.called (.keep [200]) ()
    · exact hnew
    · cases hb
  · rintro b (_ | ⟨_, _ | ⟨_, hb⟩⟩)
    · rfl
    · rfl
    · cases hb

/-! ## The whole tree -/

/-- Simulators that can be built, and provers and verifiers that can be obtained from new ones by
calls and by compositions, have one soundness parameter throughout. -/
theorem one_soundness_throughout {P : Protocol E} (hP : P.Constructible) {p : Prover E}
    (hp : p.Obtainable) {v : Verifier E} (hv : v.Obtainable) :
    P.OneSoundness ∧ p.OneSoundness ∧ v.OneSoundness :=
  ⟨hP.uniform.oneSoundness, hp.oneSoundness, hv.oneSoundness⟩

theorem one_soundness_throughout_smallTree : Protocol.smallTree.OneSoundness ∧
    Prover.smallComposed.OneSoundness ∧ Verifier.smallComposed.OneSoundness :=
  one_soundness_throughout Protocol.smallTree_constructible Prover.smallComposed_obtainable
    Verifier.smallComposed_obtainable

end SigmaProofs
