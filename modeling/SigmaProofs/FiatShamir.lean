import SigmaProofs.Message.Json
import SigmaProofs.Prover
import SigmaProofs.Transcript
import SigmaProofs.Verifier

/-!
# Non-interactive proofs

The challenge of a proof is drawn from a transcript that has taken in the soundness parameter, the
statement and the first message (`absorbed`). The proof consists of both messages; its verifier
computes the challenge again.
-/

namespace SigmaProofs

/-! ## What a transcript takes in -/

/-- A number in eight bytes. -/
def Labelled.ofNat64 (label : String) (n : Nat) : Labelled := ⟨label, littleEndian 8 n⟩

/-- A number of any size. -/
def Labelled.ofNat (label : String) (n : Nat) : Labelled := ⟨label, Bytes.ofNat n⟩

/-- The modulus and the length of a key. -/
def DamgardJurik.Key.absorbed (key : Key) : List Labelled :=
  [.ofNat "n" key.n, .ofNat64 "s" key.s]

/-- The name of the secret that the prover of an encrypted value knows. -/
def ElGamalSecret.name : ElGamalSecret → String
  | .randomness => "randomness"
  | .privateKey => "private_key"

namespace Statement

variable {E : Type}

/-- The name of a statement's form. -/
def header (s : Statement E) : Labelled := ⟨"statement", Transcript.textBytes s.form⟩

/-- The elements that belong to an ElGamal ciphertext. -/
def absorbedCiphertext (G : PrimeGroup E) (publicKey c1 c2 value : E) : List Labelled :=
  [⟨"public_key", G.encode publicKey⟩, ⟨"c1", G.encode c1⟩, ⟨"c2", G.encode c2⟩,
    ⟨"value", G.encode value⟩]

mutual

/-- The messages that stand for the parts of a statement. -/
def absorbedParts (G : PrimeGroup E) : Statement E → List Labelled
  | .dlog h => [⟨"h", G.encode h⟩]
  | .dhTuple h u v => [⟨"h", G.encode h⟩, ⟨"u", G.encode u⟩, ⟨"v", G.encode v⟩]
  | .dhExtended bases powers =>
    .ofNat64 "len" bases.length :: bases.map (⟨"base", G.encode ·⟩) ++
      .ofNat64 "len" powers.length :: powers.map (⟨"power", G.encode ·⟩)
  | .pedersenKnowledge h commitment =>
    [⟨"h", G.encode h⟩, ⟨"commitment", G.encode commitment⟩]
  | .pedersenValue h commitment value =>
    [⟨"h", G.encode h⟩, ⟨"commitment", G.encode commitment⟩, .ofNat "value" value]
  | .elGamalKnowledge publicKey => [⟨"public_key", G.encode publicKey⟩]
  | .elGamalCommitted publicKey c1 c2 value => absorbedCiphertext G publicKey c1 c2 value
  | .elGamalEncrypted publicKey c1 c2 value secret =>
    absorbedCiphertext G publicKey c1 c2 value ++
      [⟨"witness", Transcript.textBytes secret.name⟩]
  | .djZero key c => key.absorbed ++ [.ofNat "c" c]
  | .djValue key c x => key.absorbed ++ [.ofNat "c" c, .ofNat "x" x]
  | .djProduct key c1 c2 c3 => key.absorbed ++ [.ofNat "c1" c1, .ofNat "c2" c2, .ofNat "c3" c3]
  | .all statements => .ofNat64 "len" statements.length :: absorbedAll G statements
  | .any statements => .ofNat64 "len" statements.length :: absorbedAll G statements

/-- The messages that stand for several statements, one after another. -/
def absorbedAll (G : PrimeGroup E) : List (Statement E) → List Labelled
  | [] => []
  | s :: ss => header s :: absorbedParts G s ++ absorbedAll G ss

end

/-- The messages that stand for a statement: its form and its parts. -/
def absorbed (G : PrimeGroup E) (s : Statement E) : List Labelled :=
  s.header :: absorbedParts G s

end Statement

/-- The messages from which the challenge of a proof is computed. -/
def absorbed {E : Type} (G : PrimeGroup E) (t : Soundness) (statement : Statement E)
    (first : Message) : List Labelled :=
  ⟨"dom-sep", Transcript.textBytes "sigma_proof"⟩ :: .ofNat64 "t" t.bits ::
    (statement.absorbed G ++ [⟨"first", first.toBytes⟩])

/-- The challenge of a proof, and the transcript after it. -/
def Transcript.challengeFor {E : Type} (tr : Transcript) (G : PrimeGroup E) (t : Soundness)
    (statement : Statement E) (first : Message) : Bytes × Transcript :=
  (tr.appendAll (absorbed G t statement first)).challenge "challenge" t.byteLength

/-! ## Proofs -/

/-- A proof that needs no conversation. -/
structure Proof where
  first : Message
  second : Message
deriving DecidableEq, Repr

namespace Proof

variable {E : Type}

/-- Makes a proof. The prover and the transcript are returned as they are afterwards. -/
def create (G : PrimeGroup E) (prover : Prover E) (input : Witnessed E) (tr : Transcript) :
    Sampling (Except ProtocolError Proof × Prover E × Transcript) := do
  match ← prover.commit input with
  | (.error err, prover) => return (.error err, prover, tr)
  | (.ok first, prover) =>
    let (challenge, tr) := tr.challengeFor G prover.soundness input.statement first
    let (second, prover) := prover.respond challenge
    return (second.map fun second => ⟨first, second⟩, prover, tr)

/-- Checks a proof. The verifier and the transcript are returned as they are afterwards. -/
def verify [DecidableEq E] (proof : Proof) (G : PrimeGroup E) (verifier : Verifier E)
    (statement : Statement E) (tr : Transcript) :
    Except ProtocolError Bool × Verifier E × Transcript :=
  let (challenge, tr) := tr.challengeFor G verifier.soundness statement proof.first
  match verifier.keepChallenge challenge with
  | .error fault => (.error (.deviation fault), verifier, tr)
  | .ok verifier =>
    let (verdict, verifier) := verifier.verify statement proof.first proof.second
    (verdict, verifier, tr)

/-! ## Formats -/

/-- The binary form: both messages in order. -/
def toBytes (proof : Proof) : Bytes := proof.first.toBytes ++ proof.second.toBytes

def binaryDecoder : Decoder UInt8 Proof := do
  return ⟨← Message.binaryDecoder, ← Message.binaryDecoder⟩

def ofBytes (bs : Bytes) : Except DecodeFault Proof := (binaryDecoder.run bs).map Prod.fst

/-- The JSON text, an object with both messages. -/
def toJson (proof : Proof) : List Char :=
  Json.writeObject [("first", proof.first.toJson), ("second", proof.second.toJson)]

def jsonDecoder (room : Nat) : Decoder Char Proof := do
  match ← Json.values room [("first", Message.jsonDecoder), ("second", Message.jsonDecoder)] with
  | [first, second] => return ⟨first, second⟩
  | _ => .malformed

def ofJson (text : String) : Except DecodeFault Proof :=
  Json.readText (jsonDecoder Json.room₀) text

end Proof

end SigmaProofs
