import SigmaProofs.Protocol

/-!
# Provers

A prover is a protocol in which every part has room for the random values of an unfinished run.
`commit` draws them and gives the first message, `respond` uses them up and gives the second.

Each operation returns the new prover together with its result, also when it fails. Whatever
happens to a response, its random values are gone afterwards.

* `protocol_ofProtocol`, `protocol_reset`: a prover stays a prover of its protocol.
* `hasPending_ofProtocol`, `hasPending_reset`: nothing is kept before a run, nor after an erasure.
-/

namespace SigmaProofs

/-- What the prover of an OR composition keeps between its two messages, besides what the branch
with the witness keeps. -/
structure OrPending where
  /-- The branch with the witness. -/
  index : Nat
  /-- The challenges of the simulated branches; an empty one for the branch with the witness. -/
  challenges : List Bytes
  /-- The responses of the simulated branches. -/
  responses : List (Option Message)
deriving DecidableEq, Repr

namespace OrPending

/-- The second message of an OR composition, given challenge and response of the branch with the
witness. -/
def complete (pending : OrPending) (challenge : Bytes) (response : Message) : Message :=
  .orResponse (pending.challenges.set pending.index challenge)
    ((pending.responses.set pending.index (some response)).filterMap id)

end OrPending

/-- The prover of a protocol. -/
inductive Prover (E : Type) where
  | leaf (t : Soundness) (leaf : Leaf E) (pending : Option Pending)
  | adapted (conversion : Conversion E) (inner : Prover E)
  | all (t : Soundness) (isPending : Bool) (branches : List (Prover E))
  | any (t : Soundness) (pending : Option OrPending) (branches : List (Prover E))

namespace Prover

variable {E : Type}

def soundness : Prover E → Soundness
  | leaf t _ _ => t
  | adapted _ inner => inner.soundness
  | all t _ _ => t
  | any t _ _ => t

mutual

/-- A prover of the protocol, with no run begun. -/
def ofProtocol : Protocol E → Prover E
  | .leaf t l => .leaf t l none
  | .adapted conversion inner => .adapted conversion (ofProtocol inner)
  | .all t branches => .all t false (ofProtocols branches)
  | .any t branches => .any t none (ofProtocols branches)

def ofProtocols : List (Protocol E) → List (Prover E)
  | [] => []
  | b :: bs => ofProtocol b :: ofProtocols bs

end

mutual

/-- The protocol of a prover, which is also its simulator. -/
def protocol : Prover E → Protocol E
  | .leaf t l _ => .leaf t l
  | .adapted conversion inner => .adapted conversion (protocol inner)
  | .all t _ branches => .all t (protocols branches)
  | .any t _ branches => .any t (protocols branches)

def protocols : List (Prover E) → List (Protocol E)
  | [] => []
  | b :: bs => protocol b :: protocols bs

end

mutual

/-- Erases the random values of an unfinished run. -/
def reset : Prover E → Prover E
  | .leaf t l _ => .leaf t l none
  | .adapted conversion inner => .adapted conversion (reset inner)
  | .all t _ branches => .all t false (resetAll branches)
  | .any t _ branches => .any t none (resetAll branches)

def resetAll : List (Prover E) → List (Prover E)
  | [] => []
  | b :: bs => reset b :: resetAll bs

end

mutual

/-- Whether random values of an unfinished run are kept. -/
def hasPending : Prover E → Bool
  | .leaf _ _ pending => pending.isSome
  | .adapted _ inner => hasPending inner
  | .all _ isPending branches => isPending || anyPending branches
  | .any _ pending branches => pending.isSome || anyPending branches

/-- Whether one of several provers keeps random values. -/
def anyPending : List (Prover E) → Bool
  | [] => false
  | b :: bs => hasPending b || anyPending bs

end

/-- Erases what the branch with the given index keeps. -/
def resetAt : List (Prover E) → Nat → List (Prover E)
  | [], _ => []
  | b :: bs, 0 => reset b :: bs
  | b :: bs, i + 1 => b :: resetAt bs i

/-! ## Laws of the state -/

mutual

/-- A fresh prover of a protocol belongs to that protocol. -/
@[simp] theorem protocol_ofProtocol : ∀ p : Protocol E, (ofProtocol p).protocol = p
  | .leaf .. => rfl
  | .adapted _ inner => by simp [ofProtocol, protocol, protocol_ofProtocol inner]
  | .all _ branches => by simp [ofProtocol, protocol, protocols_ofProtocols branches]
  | .any _ branches => by simp [ofProtocol, protocol, protocols_ofProtocols branches]

@[simp] theorem protocols_ofProtocols : ∀ ps : List (Protocol E), protocols (ofProtocols ps) = ps
  | [] => rfl
  | p :: ps => by
    simp [ofProtocols, protocols, protocol_ofProtocol p, protocols_ofProtocols ps]

end

mutual

/-- Erasing random values does not change the protocol. -/
@[simp] theorem protocol_reset : ∀ p : Prover E, p.reset.protocol = p.protocol
  | .leaf .. => rfl
  | .adapted _ inner => by simp [reset, protocol, protocol_reset inner]
  | .all _ _ branches => by simp [reset, protocol, protocols_resetAll branches]
  | .any _ _ branches => by simp [reset, protocol, protocols_resetAll branches]

@[simp] theorem protocols_resetAll : ∀ ps : List (Prover E), protocols (resetAll ps) = protocols ps
  | [] => rfl
  | p :: ps => by simp [resetAll, protocols, protocol_reset p, protocols_resetAll ps]

end

mutual

/-- Nothing is kept after random values were erased. -/
@[simp] theorem hasPending_reset : ∀ p : Prover E, p.reset.hasPending = false
  | .leaf .. => rfl
  | .adapted _ inner => by simp [reset, hasPending, hasPending_reset inner]
  | .all _ _ branches => by simp [reset, hasPending, anyPending_resetAll branches]
  | .any _ _ branches => by simp [reset, hasPending, anyPending_resetAll branches]

@[simp] theorem anyPending_resetAll : ∀ ps : List (Prover E), anyPending (resetAll ps) = false
  | [] => rfl
  | p :: ps => by simp [resetAll, anyPending, hasPending_reset p, anyPending_resetAll ps]

end

mutual

/-- A fresh prover keeps nothing. -/
@[simp] theorem hasPending_ofProtocol : ∀ p : Protocol E, (ofProtocol p).hasPending = false
  | .leaf .. => rfl
  | .adapted _ inner => by simp [ofProtocol, hasPending, hasPending_ofProtocol inner]
  | .all _ branches => by simp [ofProtocol, hasPending, anyPending_ofProtocols branches]
  | .any _ branches => by simp [ofProtocol, hasPending, anyPending_ofProtocols branches]

@[simp] theorem anyPending_ofProtocols :
    ∀ ps : List (Protocol E), anyPending (ofProtocols ps) = false
  | [] => rfl
  | p :: ps => by
    simp [ofProtocols, anyPending, hasPending_ofProtocol p, anyPending_ofProtocols ps]

end

/-- A prover and its protocol have one soundness parameter. -/
@[simp] theorem soundness_protocol : ∀ p : Prover E, p.protocol.soundness = p.soundness
  | .leaf .. | .all .. | .any .. => rfl
  | .adapted _ inner => soundness_protocol inner

/-! ## The first message -/

/-- Simulated runs of all branches but the one with the given index, up to the first that fails. -/
def simulateOthers : List (Prover E) → List (Statement E) → Nat →
    (ops : ChallengeOps := .plain) → Sampling (Except ProtocolError (List (Option Conversation)))
  | _ :: branches, _ :: statements, 0, ops => do
    match ← simulateFrom branches statements ops with
    | .error err => return .error err
    | .ok runs => return .ok (none :: runs)
  | branch :: branches, statement :: statements, i + 1, ops => do
    match ← branch.protocol.simulate statement ops with
    | .error err => return .error err
    | .ok run =>
      match ← simulateOthers branches statements i ops with
      | .error err => return .error err
      | .ok runs => return .ok (some run :: runs)
  | _, _, _, _ => return .ok []
where
  /-- Simulated runs of all branches. -/
  simulateFrom : List (Prover E) → List (Statement E) → (ops : ChallengeOps := .plain) →
      Sampling (Except ProtocolError (List (Option Conversation)))
    | branch :: branches, statement :: statements, ops => do
      match ← branch.protocol.simulate statement ops with
      | .error err => return .error err
      | .ok run =>
        match ← simulateFrom branches statements ops with
        | .error err => return .error err
        | .ok runs => return .ok (some run :: runs)
    | _, _, _ => return .ok []

/-- The first messages of an OR composition: those of the simulated runs, and the given one. -/
def firstMessages (own : Message) (runs : List (Option Conversation)) : List Message :=
  runs.map fun run => (run.map (·.first)).getD own

/-- What is kept of the simulated runs. -/
def orPending (index : Nat) (runs : List (Option Conversation)) : OrPending where
  index := index
  challenges := runs.map fun run => (run.map (·.challenge)).getD []
  responses := runs.map fun run => run.map (·.second)

mutual

/-- The first message. What is left of an unfinished run is erased before anything else. -/
def commit : Prover E → Witnessed E → (ops : ChallengeOps := .plain) →
    Sampling (Except ProtocolError Message × Prover E)
  | .leaf t l _, input, _ => do
    match ← l.commit t input with
    | .error err => return (.error (.config err), .leaf t l none)
    | .ok (pending, first) => return (.ok first, .leaf t l (some pending))
  | .adapted conversion inner, input, ops =>
    match conversion.applyInput input with
    | .error err => return (.error (.config err), .adapted conversion (reset inner))
    | .ok input => do
      let (result, inner) ← commit inner input ops
      return (result, .adapted conversion inner)
  | .all t _ branches, input, ops =>
    match do
      let statements ← input.statement.expectAll
      checkArity branches.length statements.length
      let witnesses ← input.witness.expectAll
      checkArity branches.length witnesses.length
      return (statements, witnesses)
    with
    | .error err => return (.error (.config err), .all t false (resetAll branches))
    | .ok (statements, witnesses) => do
      match ← commitEach branches statements witnesses ops with
      | (.ok firsts, branches) => return (.ok (.multiple firsts), .all t true branches)
      | (.error err, branches) => return (.error err, .all t false (resetAll branches))
  | .any t _ branches, input, ops =>
    match do
      let statements ← input.statement.expectAny
      checkArity branches.length statements.length
      let (index, witness) ← input.witness.expectAny
      match statements[index]? with
      | some statement => return (statements, index, (⟨statement, witness⟩ : Witnessed E))
      | none => .error (.invalidInput .witnessIndexOutOfBounds)
    with
    | .error err => return (.error (.config err), .any t none (resetAll branches))
    | .ok (statements, index, known) => do
      match ← simulateOthers branches statements index ops with
      | .error err => return (.error err, .any t none (resetAll branches))
      | .ok runs =>
        match ← commitAt branches index known ops with
        | (.error err, branches) => return (.error err, .any t none branches)
        | (.ok first, branches) =>
          return (.ok (.multiple (firstMessages first runs)),
            .any t (some (orPending index runs)) branches)

/-- The first messages of several branches, up to the first that fails. -/
def commitEach : List (Prover E) → List (Statement E) → List Witness →
    (ops : ChallengeOps := .plain) → Sampling (Except ProtocolError (List Message) × List (Prover E))
  | branch :: branches, statement :: statements, witness :: witnesses, ops => do
    match ← commit branch ⟨statement, witness⟩ ops with
    | (.error err, branch) => return (.error err, branch :: branches)
    | (.ok first, branch) =>
      let (result, branches) ← commitEach branches statements witnesses ops
      return (result.map (first :: ·), branch :: branches)
  | branches, _, _, _ => return (.ok [], branches)

/-- The first message of the branch with the given index; all other branches are erased. -/
def commitAt : List (Prover E) → Nat → Witnessed E → (ops : ChallengeOps := .plain) →
    Sampling (Except ProtocolError Message × List (Prover E))
  | [], _, _, _ => return (.error (.illegalState .respondBeforeCommit), [])
  | branch :: branches, 0, input, ops => do
    let (result, branch) ← commit branch input ops
    return (result, branch :: resetAll branches)
  | branch :: branches, i + 1, input, ops => do
    let (result, branches) ← commitAt branches i input ops
    return (result, reset branch :: branches)

end

/-! ## The second message -/

mutual

/-- The response to a challenge. The random values of the run are erased, unless the operations on
challenges fail. -/
def respond : Prover E → Bytes → (ops : ChallengeOps := .plain) →
    Except ProtocolError Message × Prover E
  | .leaf t l none, _, _ => (.error (.illegalState .respondBeforeCommit), .leaf t l none)
  | .leaf t l (some pending), challenge, _ =>
    match t.requireChallenge challenge with
    | .error fault => (.error (.deviation fault), .leaf t l none)
    | .ok () => (.ok (pending.respond (challengeNumber challenge)), .leaf t l none)
  | .adapted conversion inner, challenge, ops =>
    let (result, inner) := respond inner challenge ops
    (result, .adapted conversion inner)
  | .all t false branches, _, _ =>
    (.error (.illegalState .respondBeforeCommit), .all t false branches)
  | .all t true branches, challenge, ops =>
    match t.requireChallenge challenge with
    | .error fault => (.error (.deviation fault), .all t false (resetAll branches))
    | .ok () =>
      let (result, branches) := respondEach branches challenge ops
      (result.map .multiple, .all t false branches)
  | .any t none branches, _, _ =>
    (.error (.illegalState .respondBeforeCommit), .any t none branches)
  | .any t (some pending) branches, challenge, ops =>
    match t.requireChallenge challenge with
    | .error fault => (.error (.deviation fault), .any t none (resetAt branches pending.index))
    | .ok () =>
      match ops.addAll challenge (pending.challenges.eraseIdx pending.index) with
      | .error err => (.error err, .any t (some pending) branches)
      | .ok own =>
        let (result, branches) := respondAt branches pending.index own ops
        (result.map (pending.complete own), .any t none branches)

/-- The responses of several branches. All of them respond, so that all erase their random
values, and the first error counts. -/
def respondEach : List (Prover E) → Bytes → (ops : ChallengeOps := .plain) →
    Except ProtocolError (List Message) × List (Prover E)
  | [], _, _ => (.ok [], [])
  | branch :: branches, challenge, ops =>
    let (result, branch) := respond branch challenge ops
    let (results, branches) := respondEach branches challenge ops
    (do return (← result) :: (← results), branch :: branches)

/-- The response of the branch with the given index. -/
def respondAt : List (Prover E) → Nat → Bytes → (ops : ChallengeOps := .plain) →
    Except ProtocolError Message × List (Prover E)
  | [], _, _, _ => (.error (.illegalState .respondBeforeCommit), [])
  | branch :: branches, 0, challenge, ops =>
    let (result, branch) := respond branch challenge ops
    (result, branch :: branches)
  | branch :: branches, i + 1, challenge, ops =>
    let (result, branches) := respondAt branches i challenge ops
    (result, branch :: branches)

end

end Prover

end SigmaProofs
