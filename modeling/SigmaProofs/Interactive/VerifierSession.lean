import SigmaProofs.Channel
import SigmaProofs.Message.Binary
import SigmaProofs.Verifier

/-!
# The verifier's side of a conversation

The verifier chooses a challenge, receives the first message, sends the challenge, receives the
second message and gives its verdict. If a frame cannot be moved or read, the challenge is
forgotten.
-/

namespace SigmaProofs

/-- A verifier in a conversation. -/
structure VerifierSession (E : Type) where
  verifier : Verifier E
  /-- The first message of the run whose challenge was sent. -/
  first : Option Message := none

namespace VerifierSession

variable {E C : Type}

/-- The result of a call, with the session and the channel afterwards. -/
abbrev Outcome (E C α : Type) : Type := Except ProtocolError α × VerifierSession E × C

/-- Draws the challenge of the next run. -/
def drawChallenge (session : VerifierSession E) : Sampling (Bytes × VerifierSession E) := do
  let (challenge, verifier) ← session.verifier.drawChallenge
  return (challenge, { session with verifier })

/-- Sets the challenge of the next run. -/
def keepChallenge (session : VerifierSession E) (challenge : Bytes) :
    Except Deviation (VerifierSession E) := do
  return { session with verifier := ← session.verifier.keepChallenge challenge }

/-- Gives up a run because a frame could not be moved or read. -/
def abandon (session : VerifierSession E) : VerifierSession E :=
  { session with verifier := session.verifier.reset }

/-- Receives the first message, then sends the challenge. -/
def challengeProver (channel : Channel C) (session : VerifierSession E) (c : C) :
    Outcome E C Unit :=
  if session.first.isSome then (.error (.illegalState .challengeAgain), session, c)
  else
    match session.verifier.challenge with
    | none => (.error (.illegalState .challengeNotSet), session, c)
    | some challenge =>
      match channel.receive c with
      | (.error err, c) =>
        (.error (.communication .receivingFirst err), session.abandon, c)
      | (.ok frame, c) =>
        match Message.ofFrame (Bytes.ofFrame frame) with
        | .error err => (.error err, session.abandon, c)
        | .ok first =>
          match channel.send challenge.toFrame c with
          | (.error err, c) =>
            (.error (.communication .sendingChallenge err), session.abandon, c)
          | (.ok (), c) => (.ok (), { session with first := some first }, c)

/-- Receives the second message and gives the verdict. Whatever happens, the run is over. -/
def conclude [DecidableEq E] (channel : Channel C) (session : VerifierSession E)
    (statement : Statement E) (c : C) : Outcome E C Bool :=
  match session.first with
  | none => (.error (.illegalState .verdictBeforeChallengeSent), session, c)
  | some first =>
    let session := { session with first := none }
    match channel.receive c with
    | (.error err, c) => (.error (.communication .receivingSecond err), session.abandon, c)
    | (.ok frame, c) =>
      match Message.ofFrame (Bytes.ofFrame frame) with
      | .error err => (.error err, session.abandon, c)
      | .ok second =>
        let (verdict, verifier) := session.verifier.verify statement first second
        (verdict, { session with verifier }, c)

/-- A run with a fresh challenge. The challenge is drawn before the calls are checked for their
order. -/
def verify [DecidableEq E] (channel : Channel C) (session : VerifierSession E)
    (statement : Statement E) (c : C) : Sampling (Outcome E C Bool) := do
  let (_, session) ← session.drawChallenge
  match challengeProver channel session c with
  | (.error err, session, c) => return (.error err, session, c)
  | (.ok (), session, c) => return conclude channel session statement c

end VerifierSession

end SigmaProofs
