import SigmaProofs.Soundness

/-!
# Operations on challenges

An OR composition adds challenges up, bit by bit, and the verifier of a composition sets challenges
that its branches have to take. Provers, verifiers and simulators have these operations as a
parameter, which is `ChallengeOps.plain` unless another one is given.
-/

namespace SigmaProofs

/-- What compositions do with challenges. -/
structure ChallengeOps where
  /-- Two challenges are added up. -/
  add (acc other : Bytes) : Except ProtocolError Bytes
  /-- A branch does not take the challenge that its composition sets. -/
  refused (fault : Deviation) : ProtocolError

namespace ChallengeOps

/-- Challenges are added up whatever their lengths are, and a fault of a branch is one of the
composition. -/
def plain : ChallengeOps where
  add acc other := .ok (acc.xor other)
  refused := .deviation

/-- The shares, added to `acc` one after another. -/
def addAll (ops : ChallengeOps) (acc : Bytes) (shares : List Bytes) : Except ProtocolError Bytes :=
  shares.foldlM ops.add acc

@[simp] theorem addAll_plain (acc : Bytes) (shares : List Bytes) :
    plain.addAll acc shares = .ok (shares.foldl Bytes.xor acc) := by
  induction shares generalizing acc with
  | nil => rfl
  | cons share shares ih => exact ih (acc.xor share)

end ChallengeOps

end SigmaProofs
