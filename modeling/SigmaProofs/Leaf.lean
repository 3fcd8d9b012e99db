import SigmaProofs.Leaf.Ciphertext
import SigmaProofs.Leaf.Opening

/-!
# Basic protocols

A `Leaf` is one of the protocols from which all others are made. Each of them has a first message
(`commit`), a response to the challenge, an equation that the verifier checks (`verify`), and a
simulator that draws the response and solves the equation for the first message.

`Pending` is what a prover keeps between its two messages. It holds random values that must serve
for one response only.
-/

namespace SigmaProofs

/-- Brings an unusable configuration or input among the errors of a run. -/
def asProtocolError {α : Type} (x : Except ConfigError α) : Except ProtocolError α :=
  x.mapError .config

/-- The challenge as a number. -/
abbrev challengeNumber (challenge : Bytes) : Nat := Bytes.toNat challenge

/-- A complete run: first message, challenge and response. -/
structure Conversation where
  first : Message
  challenge : Bytes
  second : Message
deriving DecidableEq, Repr

/-- What a prover keeps between its two messages. -/
inductive Pending where
  /-- For the response `nonce + e * witness` modulo `order`. -/
  | exponent (order nonce witness : Nat)
  | opening (order alpha beta value randomness : Nat)
  | encryptedZero (n rho randomness : Nat)
  | product (key : DamgardJurik.Key) (c2 d rho rhoBar x1 r1 r : Nat)
deriving DecidableEq, Repr

/-- The response to the challenge `e`. -/
def Pending.respondWith {m : Type → Type} [Monad m] (A : Arithmetic m) (e : Nat) :
    Pending → m Message
  | exponent order nonce witness => return .integer (exponentResponse order nonce e witness)
  | opening order alpha beta value randomness =>
    return Opening.respond order alpha beta e value randomness
  | encryptedZero n rho randomness => EncryptedZero.respondWith A n rho e randomness
  | product key c2 d rho rhoBar x1 r1 r =>
    Product.respondWith A key.raw c2 d rho rhoBar x1 r1 r e

def Pending.respond (e : Nat) (pending : Pending) : Message := Id.run (pending.respondWith .plain e)

/-! ## Parties of proofs about ciphertexts -/

section Ciphertexts

variable {E : Type} {m : Type → Type} [Monad m] (A : Arithmetic m) (t : Soundness)

namespace EncryptedZero

/-- What the prover takes from its input: the key and the randomness. -/
def proverInput (input : Witnessed E) : Except ConfigError (DamgardJurik.Key × Nat) := do
  let (key, _) ← input.statement.expectDjZero
  let r ← input.witness.expectDjRandomness
  key.requireLength t
  return (key, r)

def commitFor [MonadLiftT Sampling m] (input : Witnessed E) :
    m (Except ConfigError (Pending × Message)) :=
  match proverInput t input with
  | .error cause => return .error cause
  | .ok (key, r) => do
    let rho ← key.raw.drawUnit A
    return .ok (.encryptedZero key.n rho r, ← commitWith A key.raw rho)

/-- The key, the ciphertext and the two messages. -/
def verifierInput (statement : Statement E) (first second : Message) :
    Except ProtocolError (DamgardJurik.Key × Nat × Nat × Nat) := do
  let (key, c) ← asProtocolError statement.expectDjZero
  asProtocolError (key.requireLength t)
  return (key, c, ← first.expectInteger, ← second.expectInteger)

def verifyFor (e : Nat) (statement : Statement E) (first second : Message) :
    m (Except ProtocolError Bool) :=
  match verifierInput t statement first second with
  | .error err => return .error err
  | .ok (key, c, a, z) => return .ok (← acceptsWith A key.raw c e a z)

/-- The key and the ciphertext. -/
def simulatorInput (statement : Statement E) : Except ConfigError (DamgardJurik.Key × Nat) := do
  let (key, c) ← statement.expectDjZero
  key.requireLength t
  return (key, c)

def simulateFor [MonadLiftT Sampling m] (statement : Statement E) (e : Nat) :
    m (Except ConfigError (Message × Message)) :=
  match simulatorInput t statement with
  | .error cause => return .error cause
  | .ok (key, c) => do
    let z ← key.raw.drawUnit A
    return (← simulateWith A key.raw c e z).map (·, .integer z)

end EncryptedZero

namespace Product

/-- What the prover takes from its input: the key, the second ciphertext, the first factor and the
randomness of all ciphertexts. -/
def proverInput (input : Witnessed E) :
    Except ConfigError (DamgardJurik.Key × Nat × Nat × Nat × Nat × Nat) := do
  let (key, _, c2, _) ← input.statement.expectDjProduct
  let (x1, r1, r2, r3) ← input.witness.expectDjProduct
  key.requireLength t
  return (key, c2, x1, r1, r2, r3)

def commitFor [MonadLiftT Sampling m] (input : Witnessed E) :
    m (Except ConfigError (Pending × Message)) :=
  match proverInput t input with
  | .error cause => return .error cause
  | .ok (key, c2, x1, r1, r2, r3) => do
    match ← quotientRandomnessWith A key.n x1 r2 r3 with
    | .error cause => return .error cause
    | .ok r =>
      let d ← key.raw.drawPlaintext A
      let rho ← key.raw.drawUnit A
      let rhoBar ← key.raw.drawUnit A
      return .ok (.product key c2 d rho rhoBar x1 r1 r, ← commitWith A key.raw c2 d rho rhoBar)

/-- The key, the three ciphertexts, the two commitments and the three responses. -/
def verifierInput (statement : Statement E) (first second : Message) :
    Except ProtocolError (DamgardJurik.Key × (Nat × Nat × Nat) × (Nat × Nat) × Nat × Nat × Nat) := do
  let (key, c) ← asProtocolError statement.expectDjProduct
  asProtocolError (key.requireLength t)
  return (key, c, ← first.expectProductCommitment, ← second.expectProductResponse)

def verifyFor (e : Nat) (statement : Statement E) (first second : Message) :
    m (Except ProtocolError Bool) :=
  match verifierInput t statement first second with
  | .error err => return .error err
  | .ok (key, (c1, c2, c3), (a1, a2), z1, z2, z3) =>
    return .ok (← acceptsWith A key.raw c1 c2 c3 e a1 a2 z1 z2 z3)

/-- The key and the three ciphertexts. -/
def simulatorInput (statement : Statement E) :
    Except ConfigError (DamgardJurik.Key × Nat × Nat × Nat) := do
  let (key, c) ← statement.expectDjProduct
  key.requireLength t
  return (key, c)

def simulateFor [MonadLiftT Sampling m] (statement : Statement E) (e : Nat) :
    m (Except ConfigError (Message × Message)) :=
  match simulatorInput t statement with
  | .error cause => return .error cause
  | .ok (key, c1, c2, c3) => do
    let z1 ← key.raw.drawPlaintext A
    let z2 ← key.raw.drawUnit A
    let z3 ← key.raw.drawUnit A
    return (← simulateWith A key.raw c1 c2 c3 e z1 z2 z3).map (·, .productResponse z1 z2 z3)

end Product

end Ciphertexts

/-- A basic protocol, with the group in which it runs. -/
inductive Leaf (E : Type) where
  | dlog (G : PrimeGroup E)
  | dhTuple (G : PrimeGroup E)
  | dhExtended (G : PrimeGroup E)
  | opening (G : PrimeGroup E)
  | encryptedZero
  | product

namespace Leaf

variable {E : Type}

/-- The group, for the protocols that need one. -/
def group? : Leaf E → Option (PrimeGroup E)
  | dlog G | dhTuple G | dhExtended G | opening G => some G
  | encryptedZero | product => none

/-- The group has to be large enough for the soundness parameter, and valid. -/
def check (leaf : Leaf E) (t : Soundness) : Except ConfigError Unit := do
  match leaf.group? with
  | some G =>
    t.requireOrder G.order
    if G.isValid then return () else .error (.invalidGroup .failedValidation)
  | none => return ()

/-! ## The prover -/

/-- The first message, and what is kept for the response. -/
def commit (t : Soundness) (input : Witnessed E) :
    Leaf E → Sampling (Except ConfigError (Pending × Message))
  | dlog G =>
    match do return (← input.statement.expectDlog, ← input.witness.expectExponent) with
    | .error e => return .error e
    | .ok (_, w) => do
      let r ← G.drawExponent
      return .ok (.exponent G.order r w, Dlog.commit G r)
  | dhTuple G =>
    match do return (← input.statement.expectDhTuple, ← input.witness.expectExponent) with
    | .error e => return .error e
    | .ok ((h, _, _), w) => do
      let r ← G.drawExponent
      return .ok (.exponent G.order r w, DhTuple.commit G h r)
  | dhExtended G =>
    match do return (← input.statement.expectDhExtended, ← input.witness.expectExponent) with
    | .error e => return .error e
    | .ok ((bases, _), w) => do
      let r ← G.drawExponent
      return .ok (.exponent G.order r w, DhExtended.commit G bases r)
  | opening G =>
    match do return (← input.statement.expectPedersenKnowledge, ← input.witness.expectOpening) with
    | .error e => return .error e
    | .ok ((h, _), (x, r)) => do
      let alpha ← G.drawExponent
      let beta ← G.drawExponent
      return .ok (.opening G.order alpha beta x r, Opening.commit G h alpha beta)
  | encryptedZero => EncryptedZero.commitFor .plain t input
  | product => Product.commitFor .plain t input

/-! ## The verifier -/

/-- Whether the messages prove the statement under the challenge. -/
def verify [DecidableEq E] (t : Soundness) (challenge : Bytes) (statement : Statement E)
    (first second : Message) : Leaf E → Except ProtocolError Bool
  | dlog G => do
    let h ← asProtocolError statement.expectDlog
    let a ← first.expectElement
    let z ← second.expectInteger
    return Dlog.accepts G h (challengeNumber challenge) a z
  | dhTuple G => do
    let (h, u, v) ← asProtocolError statement.expectDhTuple
    let (a, b) ← first.expectElementPair
    let z ← second.expectInteger
    return DhTuple.accepts G h u v (challengeNumber challenge) a b z
  | dhExtended G => do
    let (bases, powers) ← asProtocolError statement.expectDhExtended
    let commitments ← first.expectMultiple
    let z ← second.expectInteger
    if commitments.length ≠ bases.length then return false
    else DhExtended.accepts G (challengeNumber challenge) z bases powers commitments
  | opening G => do
    let (h, c) ← asProtocolError statement.expectPedersenKnowledge
    let a ← first.expectElement
    let (u, v) ← second.expectOpening
    return Opening.accepts G h c (challengeNumber challenge) a u v
  | encryptedZero =>
    Id.run (EncryptedZero.verifyFor .plain t (challengeNumber challenge) statement first second)
  | product =>
    Id.run (Product.verifyFor .plain t (challengeNumber challenge) statement first second)

/-! ## The simulator -/

/-- The first message and the response of a run with the given challenge. -/
def simulateMessages (t : Soundness) (statement : Statement E) (e : Nat) :
    Leaf E → Sampling (Except ConfigError (Message × Message))
  | dlog G =>
    match statement.expectDlog with
    | .error err => return .error err
    | .ok h => do
      let z ← G.drawExponent
      return .ok (Dlog.simulate G h e z, .integer z)
  | dhTuple G =>
    match statement.expectDhTuple with
    | .error err => return .error err
    | .ok (h, u, v) => do
      let z ← G.drawExponent
      return .ok (DhTuple.simulate G h u v e z, .integer z)
  | dhExtended G =>
    match statement.expectDhExtended with
    | .error err => return .error err
    | .ok (bases, powers) => do
      let z ← G.drawExponent
      return .ok (DhExtended.simulate G bases powers e z, .integer z)
  | opening G =>
    match statement.expectPedersenKnowledge with
    | .error err => return .error err
    | .ok (h, c) => do
      let u ← G.drawExponent
      let v ← G.drawExponent
      return .ok (Opening.simulate G h c e u v, .opening u v)
  | encryptedZero => EncryptedZero.simulateFor .plain t statement e
  | product => Product.simulateFor .plain t statement e

/-- A run with the given challenge, made without a witness. -/
def simulate (leaf : Leaf E) (t : Soundness) (statement : Statement E) (challenge : Bytes) :
    Sampling (Except ProtocolError Conversation) :=
  match t.requireChallenge challenge with
  | .error fault => return .error (.deviation fault)
  | .ok () => do
    match ← leaf.simulateMessages t statement (challengeNumber challenge) with
    | .error err => return .error (.config err)
    | .ok (first, second) => return .ok { first, challenge, second }

end Leaf

end SigmaProofs
