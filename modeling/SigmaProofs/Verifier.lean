import SigmaProofs.Protocol

/-!
# Verifiers

A verifier is a protocol in which every part has a slot for a challenge. The challenge of the whole
is drawn or set from outside; the branches of a composition get theirs while messages are judged.

`verify` takes the challenge out of its slot first, so each challenge serves for one verdict,
whatever that is. A composition puts the challenges of its branches into their slots, and the
branches take them out in their turn.

* `protocol_ofProtocol`, `protocol_reset`: a verifier stays a verifier of its protocol.
* `challenge_ofProtocol`, `challenge_reset`: no challenge is kept at first, nor after a reset.
-/

namespace SigmaProofs

/-- Room for a challenge of the length that the soundness parameter asks for. -/
structure ChallengeSlot where
  soundness : Soundness
  challenge : Option Bytes
deriving DecidableEq, Repr

namespace ChallengeSlot

def empty (t : Soundness) : ChallengeSlot := ⟨t, none⟩

def clear (slot : ChallengeSlot) : ChallengeSlot := empty slot.soundness

def put (slot : ChallengeSlot) (challenge : Bytes) : ChallengeSlot :=
  { slot with challenge := some challenge }

end ChallengeSlot

/-- The verifier of a protocol. -/
inductive Verifier (E : Type) where
  | leaf (slot : ChallengeSlot) (leaf : Leaf E)
  | adapted (conversion : Conversion E) (inner : Verifier E)
  | all (slot : ChallengeSlot) (branches : List (Verifier E))
  | any (slot : ChallengeSlot) (branches : List (Verifier E))

namespace Verifier

variable {E : Type}

/-- The slot for the challenge of the whole protocol. -/
def slot : Verifier E → ChallengeSlot
  | leaf slot _ => slot
  | adapted _ inner => inner.slot
  | all slot _ => slot
  | any slot _ => slot

/-- The verifier with another slot for the challenge of the whole protocol. -/
def withSlot (slot : ChallengeSlot) : Verifier E → Verifier E
  | leaf _ l => leaf slot l
  | adapted conversion inner => adapted conversion (inner.withSlot slot)
  | all _ branches => all slot branches
  | any _ branches => any slot branches

def soundness (v : Verifier E) : Soundness := v.slot.soundness

/-- The challenge that is kept. -/
def challenge (v : Verifier E) : Option Bytes := v.slot.challenge

mutual

/-- A verifier of the protocol, without a challenge. -/
def ofProtocol : Protocol E → Verifier E
  | .leaf t l => .leaf (.empty t) l
  | .adapted conversion inner => .adapted conversion (ofProtocol inner)
  | .all t branches => .all (.empty t) (ofProtocols branches)
  | .any t branches => .any (.empty t) (ofProtocols branches)

def ofProtocols : List (Protocol E) → List (Verifier E)
  | [] => []
  | b :: bs => ofProtocol b :: ofProtocols bs

end

mutual

/-- The protocol of a verifier. -/
def protocol : Verifier E → Protocol E
  | .leaf slot l => .leaf slot.soundness l
  | .adapted conversion inner => .adapted conversion (protocol inner)
  | .all slot branches => .all slot.soundness (protocols branches)
  | .any slot branches => .any slot.soundness (protocols branches)

def protocols : List (Verifier E) → List (Protocol E)
  | [] => []
  | b :: bs => protocol b :: protocols bs

end

mutual

/-- Forgets all challenges. -/
def reset : Verifier E → Verifier E
  | .leaf slot l => .leaf slot.clear l
  | .adapted conversion inner => .adapted conversion (reset inner)
  | .all slot branches => .all slot.clear (resetAll branches)
  | .any slot branches => .any slot.clear (resetAll branches)

def resetAll : List (Verifier E) → List (Verifier E)
  | [] => []
  | b :: bs => reset b :: resetAll bs

end

/-! ## Laws of the state -/

mutual

/-- A fresh verifier of a protocol belongs to that protocol. -/
@[simp] theorem protocol_ofProtocol : ∀ p : Protocol E, (ofProtocol p).protocol = p
  | .leaf .. => rfl
  | .adapted _ inner => by simp [ofProtocol, protocol, protocol_ofProtocol inner]
  | .all _ branches => by
    simp [ofProtocol, protocol, ChallengeSlot.empty, protocols_ofProtocols branches]
  | .any _ branches => by
    simp [ofProtocol, protocol, ChallengeSlot.empty, protocols_ofProtocols branches]

@[simp] theorem protocols_ofProtocols :
    ∀ ps : List (Protocol E), protocols (ofProtocols ps) = ps
  | [] => rfl
  | p :: ps => by
    simp [ofProtocols, protocols, protocol_ofProtocol p, protocols_ofProtocols ps]

end

@[simp] theorem slot_withSlot (slot : ChallengeSlot) :
    ∀ v : Verifier E, (v.withSlot slot).slot = slot
  | .leaf .. | .all .. | .any .. => rfl
  | .adapted _ inner => slot_withSlot slot inner

theorem withSlot_withSlot (slot slot' : ChallengeSlot) :
    ∀ v : Verifier E, (v.withSlot slot).withSlot slot' = v.withSlot slot'
  | .leaf .. | .all .. | .any .. => rfl
  | .adapted conversion inner => congrArg (adapted conversion) (withSlot_withSlot slot slot' inner)

@[simp] theorem withSlot_slot : ∀ v : Verifier E, v.withSlot v.slot = v
  | .leaf .. | .all .. | .any .. => rfl
  | .adapted conversion inner => congrArg (adapted conversion) (withSlot_slot inner)

@[simp] theorem slot_reset : ∀ v : Verifier E, v.reset.slot = v.slot.clear
  | .leaf .. | .all .. | .any .. => rfl
  | .adapted _ inner => slot_reset inner

mutual

/-- Forgetting challenges does not change the protocol. -/
@[simp] theorem protocol_reset : ∀ v : Verifier E, v.reset.protocol = v.protocol
  | .leaf .. => rfl
  | .adapted _ inner => by simp [reset, protocol, protocol_reset inner]
  | .all _ branches => by simp [reset, protocol, ChallengeSlot.clear, ChallengeSlot.empty,
      protocols_resetAll branches]
  | .any _ branches => by simp [reset, protocol, ChallengeSlot.clear, ChallengeSlot.empty,
      protocols_resetAll branches]

@[simp] theorem protocols_resetAll :
    ∀ vs : List (Verifier E), protocols (resetAll vs) = protocols vs
  | [] => rfl
  | v :: vs => by simp [resetAll, protocols, protocol_reset v, protocols_resetAll vs]

end

/-- A verifier and its protocol have one soundness parameter. -/
@[simp] theorem soundness_protocol : ∀ v : Verifier E, v.protocol.soundness = v.soundness
  | .leaf .. | .all .. | .any .. => rfl
  | .adapted _ inner => soundness_protocol inner

/-- A fresh verifier keeps no challenge. -/
@[simp] theorem challenge_ofProtocol : ∀ p : Protocol E, (ofProtocol p).challenge = none
  | .leaf .. | .all .. | .any .. => rfl
  | .adapted _ inner => challenge_ofProtocol inner

/-- No challenge is kept after a reset. -/
@[simp] theorem challenge_reset (v : Verifier E) : v.reset.challenge = none := by
  rw [challenge, slot_reset]; rfl

/-! ## Challenges -/

/-- The verifier with the challenge in its slot. -/
def put (v : Verifier E) (challenge : Bytes) : Verifier E := v.withSlot (v.slot.put challenge)

/-- Draws a challenge and keeps it. -/
def drawChallenge (v : Verifier E) : Sampling (Bytes × Verifier E) := do
  let challenge ← v.soundness.drawChallenge
  return (challenge, v.put challenge)

/-- Keeps a challenge from outside, if it has the right length. -/
def keepChallenge (v : Verifier E) (challenge : Bytes) : Except Deviation (Verifier E) := do
  v.soundness.requireChallenge challenge
  return v.put challenge

theorem keepChallenge_eq_ok {v v' : Verifier E} {challenge : Bytes}
    (h : v.keepChallenge challenge = .ok v') : v' = v.put challenge := by
  unfold keepChallenge at h
  cases hc : v.soundness.requireChallenge challenge with
  | error fault => rw [hc] at h; cases h
  | ok => rw [hc] at h; cases h; rfl

/-! ## Verdicts -/

/-- The messages of the branches of an AND composition, if each branch has one of each. -/
def messagesOfAll (branchCount : Nat) (first second : Message) :
    Except ProtocolError (Option (List Message × List Message)) := do
  let firsts ← first.expectMultiple
  let seconds ← second.expectMultiple
  if firsts.length ≠ branchCount || seconds.length ≠ branchCount then return none
  else return some (firsts, seconds)

/-- The messages and challenges of the branches of an OR composition, if each branch has one of
each and the challenges have the given length. -/
def messagesOfAny (branchCount challengeLength : Nat) (first second : Message) :
    Except ProtocolError (Option (List Message × List Bytes × List Message)) := do
  let firsts ← first.expectMultiple
  let (challenges, seconds) ← second.expectOrResponse
  if firsts.length ≠ branchCount || challenges.length ≠ branchCount ||
      seconds.length ≠ branchCount then return none
  else if challenges.any (·.length ≠ challengeLength) then return none
  else return some (firsts, challenges, seconds)

mutual

/-- The number of parts of the verifier. A challenge in a slot does not change it. -/
def size : Verifier E → Nat
  | .leaf .. => 1
  | .adapted _ inner => size inner + 1
  | .all _ branches => sizeOfAll branches + 1
  | .any _ branches => sizeOfAll branches + 1

def sizeOfAll : List (Verifier E) → Nat
  | [] => 0
  | b :: bs => size b + sizeOfAll bs + 1

end

@[simp] theorem size_withSlot (slot : ChallengeSlot) :
    ∀ v : Verifier E, (v.withSlot slot).size = v.size
  | .leaf .. | .all .. | .any .. => rfl
  | .adapted _ inner => congrArg (· + 1) (size_withSlot slot inner)

theorem size_keepChallenge {v v' : Verifier E} {challenge : Bytes}
    (h : v.keepChallenge challenge = .ok v') : v'.size = v.size := by
  rw [keepChallenge_eq_ok h, put, size_withSlot]

mutual

/-- The verdict under the challenge that is kept, which is taken out of its slot first. A statement
that cannot be converted is refused before the challenge is looked for. -/
def verify [DecidableEq E] (v : Verifier E) (statement : Statement E) (first second : Message)
    (ops : ChallengeOps := .plain) : Except ProtocolError Bool × Verifier E :=
  match v with
  | .leaf slot l =>
    match slot.challenge with
    | none => (.error (.illegalState .verifyBeforeChallenge), .leaf slot l)
    | some challenge =>
      (l.verify slot.soundness challenge statement first second, .leaf slot.clear l)
  | .adapted conversion inner =>
    match conversion.apply statement with
    | .error err => (.error (.config err), .adapted conversion (reset inner))
    | .ok statement =>
      let (verdict, inner) := verify inner statement first second ops
      (verdict, .adapted conversion inner)
  | .all slot branches =>
    match slot.challenge with
    | none => (.error (.illegalState .verifyBeforeChallenge), .all slot branches)
    | some challenge =>
      match do
        let statements ← asProtocolError statement.expectAll
        asProtocolError (checkArity branches.length statements.length)
        return (statements, ← messagesOfAll branches.length first second)
      with
      | .error err => (.error err, .all slot.clear branches)
      | .ok (_, none) => (.ok false, .all slot.clear branches)
      | .ok (statements, some (firsts, seconds)) =>
        let (verdict, branches) := verifyEach branches
          (List.replicate statements.length challenge) statements firsts seconds ops
        (verdict, .all slot.clear branches)
  | .any slot branches =>
    match slot.challenge with
    | none => (.error (.illegalState .verifyBeforeChallenge), .any slot branches)
    | some challenge =>
      match do
        let statements ← asProtocolError statement.expectAny
        asProtocolError (checkArity branches.length statements.length)
        return (statements, ← messagesOfAny branches.length challenge.length first second)
      with
      | .error err => (.error err, .any slot.clear branches)
      | .ok (_, none) => (.ok false, .any slot.clear branches)
      | .ok (statements, some (firsts, challenges, seconds)) =>
        match ops.addAll (List.replicate challenge.length 0) challenges with
        | .error err => (.error err, .any slot.clear branches)
        | .ok total =>
          let (verdict, branches) := verifyEach branches challenges statements firsts seconds ops
          (verdict.map ((total == challenge) && ·), .any slot.clear branches)
termination_by v.size
decreasing_by all_goals simp only [size]; omega

/-- Whether all branches accept, each of which is given its own challenge. All of them judge, up to
the first that fails. -/
def verifyEach [DecidableEq E] (branches : List (Verifier E)) (challenges : List Bytes)
    (statements : List (Statement E)) (firsts seconds : List Message)
    (ops : ChallengeOps := .plain) : Except ProtocolError Bool × List (Verifier E) :=
  match branches, challenges, statements, firsts, seconds with
  | branch :: branches, challenge :: challenges, statement :: statements, first :: firsts,
      second :: seconds =>
    match _h : branch.keepChallenge challenge with
    | .error fault => (.error (ops.refused fault), branch :: branches)
    | .ok branch =>
      match verify branch statement first second ops with
      | (.error err, branch) => (.error err, branch :: branches)
      | (.ok verdict, branch) =>
        let (verdicts, branches) := verifyEach branches challenges statements firsts seconds ops
        (verdicts.map (verdict && ·), branch :: branches)
  | branches, _, _, _, _ => (.ok true, branches)
termination_by sizeOfAll branches
decreasing_by
  all_goals simp only [sizeOfAll]
  · rw [size_keepChallenge _h]; omega
  · omega

end

end Verifier

end SigmaProofs
