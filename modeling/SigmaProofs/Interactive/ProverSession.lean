import SigmaProofs.Channel
import SigmaProofs.Message.Binary
import SigmaProofs.Prover

/-!
# The prover's side of a conversation

The prover sends its first message, waits for the challenge and sends the second message. A call
out of order is refused and changes nothing. If a frame cannot be moved, the random values of the
run are erased.
-/

namespace SigmaProofs

/-- A prover in a conversation. -/
structure ProverSession (E : Type) where
  prover : Prover E
  /-- The first message was sent, and the challenge is awaited. -/
  isWaiting : Bool := false

namespace ProverSession

variable {E C : Type}

/-- The result of a call, with the session and the channel afterwards. -/
abbrev Outcome (E C α : Type) : Type := Except ProtocolError α × ProverSession E × C

/-- Computes the first message and sends it. -/
def sendFirst (channel : Channel C) (session : ProverSession E) (input : Witnessed E) (c : C) :
    Sampling (Outcome E C Unit) :=
  if session.isWaiting then return (.error (.illegalState .firstMessageAgain), session, c)
  else do
    match ← session.prover.commit input with
    | (.error err, prover) => return (.error err, { session with prover }, c)
    | (.ok first, prover) =>
      match channel.send first.toBytes.toFrame c with
      | (.error err, c) =>
        return (.error (.communication .sendingFirst err),
          { session with prover := prover.reset }, c)
      | (.ok (), c) => return (.ok (), { prover, isWaiting := true }, c)

/-- Receives the challenge, computes the second message and sends it. Whatever happens, the run is
over. -/
def sendSecond (channel : Channel C) (session : ProverSession E) (c : C) : Outcome E C Unit :=
  if !session.isWaiting then
    (.error (.illegalState .secondMessageBeforeFirst), session, c)
  else
    match channel.receive c with
    | (.error err, c) =>
      (.error (.communication .receivingChallenge err), { prover := session.prover.reset }, c)
    | (.ok frame, c) =>
      match session.prover.respond (Bytes.ofFrame frame) with
      | (.error err, prover) => (.error err, { prover }, c)
      | (.ok second, prover) =>
        match channel.send second.toBytes.toFrame c with
        | (.error err, c) => (.error (.communication .sendingSecond err), { prover }, c)
        | (.ok (), c) => (.ok (), { prover }, c)

/-- Both messages of a run. -/
def prove (channel : Channel C) (session : ProverSession E) (input : Witnessed E) (c : C) :
    Sampling (Outcome E C Unit) := do
  match ← sendFirst channel session input c with
  | (.error err, session, c) => return (.error err, session, c)
  | (.ok (), session, c) => return sendSecond channel session c

end ProverSession

end SigmaProofs
