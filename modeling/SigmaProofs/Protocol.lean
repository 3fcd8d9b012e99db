import SigmaProofs.ChallengeOps
import SigmaProofs.Conversion

/-!
# Protocols and their composition

A protocol is a tree: basic protocols, a protocol behind a conversion of statements, all of several
protocols, or any one of them. In an AND composition all branches get the same challenge. In an
OR composition the challenges of the branches add up to the challenge, bit by bit.

The constructors give one soundness parameter to all parts of a tree. A protocol simulates runs
(`simulateWith`, `simulate`) without any state; `Prover` and `Verifier` add the state of a run.
-/

namespace SigmaProofs

/-- A protocol for statements about elements of `E`. -/
inductive Protocol (E : Type) where
  | leaf (t : Soundness) (leaf : Leaf E)
  /-- The inner protocol, for the statements that the conversion gives. -/
  | adapted (conversion : Conversion E) (inner : Protocol E)
  /-- All statements hold. -/
  | all (t : Soundness) (branches : List (Protocol E))
  /-- At least one statement holds. -/
  | any (t : Soundness) (branches : List (Protocol E))

/-- A composition and its input have the same number of branches. -/
def checkArity (expected actual : Nat) : Except ConfigError Unit :=
  if expected = actual then .ok () else .error (.inputBranchCount expected actual)

/-- The parameter of all branches, of which there have to be at least `min`. -/
def sharedSoundness (min : Nat) (ts : List Soundness) : Except ConfigError Soundness :=
  if ts.length < min then .error (.branchCount min ts.length)
  else
    match ts with
    | [] => .error (.branchCount min 0)
    | t :: _ =>
      match ts.zipIdx.find? fun (other, _) => other ≠ t with
      | some (other, index) => .error (.soundnessMismatch index t.bits other.bits)
      | none => .ok t

/-- A random challenge. -/
def Soundness.drawChallenge (t : Soundness) : Sampling Bytes := .drawBytes t.byteLength

/-- That many random challenges, one after another. -/
def Soundness.drawChallenges (t : Soundness) : Nat → Sampling (List Bytes)
  | 0 => return []
  | n + 1 => do
    let challenge ← t.drawChallenge
    return challenge :: (← t.drawChallenges n)

namespace Protocol

variable {E : Type}

/-- The soundness parameter of the whole protocol. -/
def soundness : Protocol E → Soundness
  | leaf t _ => t
  | adapted _ inner => inner.soundness
  | all t _ => t
  | any t _ => t

/-! ## Construction -/

/-- A basic protocol in a group that is large enough and valid. -/
def ofLeaf (l : Leaf E) (t : Soundness) : Except ConfigError (Protocol E) := do
  l.check t
  return .leaf t l

/-- Knowledge of the randomness of a Pedersen commitment to a public value. -/
def pedersenValue (G : PrimeGroup E) (t : Soundness) : Except ConfigError (Protocol E) := do
  return .adapted (.pedersenValue G) (← ofLeaf (.dlog G) t)

/-- Knowledge of the private key of an ElGamal public key. -/
def elGamalKnowledge (G : PrimeGroup E) (t : Soundness) : Except ConfigError (Protocol E) := do
  return .adapted .elGamalKnowledge (← ofLeaf (.dlog G) t)

/-- An ElGamal ciphertext contains a public value. -/
def elGamalValue (G : PrimeGroup E) (t : Soundness) : Except ConfigError (Protocol E) := do
  return .adapted (.elGamalValue G) (← ofLeaf (.dhTuple G) t)

/-- A Damgård–Jurik ciphertext encrypts zero. -/
def djZero (t : Soundness) : Protocol E := .leaf t .encryptedZero

/-- A Damgård–Jurik ciphertext encrypts a public value. -/
def djValue (t : Soundness) : Protocol E := .adapted .djValue (djZero t)

/-- The plaintext of a Damgård–Jurik ciphertext is a product. -/
def djProduct (t : Soundness) : Protocol E := .leaf t .product

/-- All of the protocols, at least one, with a common soundness parameter. -/
def allOf (branches : List (Protocol E)) : Except ConfigError (Protocol E) := do
  return .all (← sharedSoundness 1 (branches.map soundness)) branches

/-- Any one of the protocols, at least two, with a common soundness parameter. -/
def anyOf (branches : List (Protocol E)) : Except ConfigError (Protocol E) := do
  return .any (← sharedSoundness 2 (branches.map soundness)) branches

/-! ## Simulation -/

/-- The messages of several branches as the messages of their AND composition. -/
def gatherAll (challenge : Bytes) (runs : List Conversation) : Conversation where
  first := .multiple (runs.map (·.first))
  challenge := challenge
  second := .multiple (runs.map (·.second))

/-- The messages of several branches as the messages of their OR composition. -/
def gatherAny (challenge : Bytes) (runs : List Conversation) : Conversation where
  first := .multiple (runs.map (·.first))
  challenge := challenge
  second := .orResponse (runs.map (·.challenge)) (runs.map (·.second))

mutual

/-- A run with the given challenge, made without a witness. -/
def simulateWith : Protocol E → Statement E → Bytes → (ops : ChallengeOps := .plain) →
    Sampling (Except ProtocolError Conversation)
  | .leaf t l, statement, challenge, _ => l.simulate t statement challenge
  | .adapted conversion inner, statement, challenge, ops =>
    match conversion.apply statement with
    | .error err => return .error (.config err)
    | .ok statement => simulateWith inner statement challenge ops
  | .all t branches, statement, challenge, ops =>
    match t.requireChallenge challenge with
    | .error fault => return .error (.deviation fault)
    | .ok () =>
      match do
        let statements ← statement.expectAll
        checkArity branches.length statements.length
        return statements
      with
      | .error err => return .error (.config err)
      | .ok statements => do
        let runs ← simulateEach branches statements
          (List.replicate statements.length challenge) ops
        return runs.map (gatherAll challenge)
  | .any t branches, statement, challenge, ops =>
    match t.requireChallenge challenge with
    | .error fault => return .error (.deviation fault)
    | .ok () =>
      match do
        let statements ← statement.expectAny
        checkArity branches.length statements.length
        return statements
      with
      | .error err => return .error (.config err)
      | .ok statements => do
        let drawn ← t.drawChallenges statements.length
        match ops.addAll challenge (drawn.drop 1) with
        | .error err => return .error err
        | .ok own =>
          let runs ← simulateEach branches statements (drawn.set 0 own) ops
          return runs.map (gatherAny challenge)

/-- Runs of several branches, each with its own challenge, up to the first that fails. -/
def simulateEach : List (Protocol E) → List (Statement E) → List Bytes →
    (ops : ChallengeOps := .plain) → Sampling (Except ProtocolError (List Conversation))
  | branch :: branches, statement :: statements, challenge :: challenges, ops => do
    match ← simulateWith branch statement challenge ops with
    | .error err => return .error err
    | .ok run =>
      match ← simulateEach branches statements challenges ops with
      | .error err => return .error err
      | .ok runs => return .ok (run :: runs)
  | _, _, _, _ => return .ok []

end

/-- A run with a random challenge, made without a witness. -/
def simulate (protocol : Protocol E) (statement : Statement E) (ops : ChallengeOps := .plain) :
    Sampling (Except ProtocolError Conversation) := do
  let challenge ← protocol.soundness.drawChallenge
  simulateWith protocol statement challenge ops

end Protocol

end SigmaProofs
