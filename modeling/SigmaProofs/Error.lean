/-!
# What can go wrong

Faults are recorded by cause; `message` gives the wording.

* `ConfigError`: a protocol object or one of its inputs is unusable.
* `Deviation`: the other party broke the form of the protocol.
* `ChannelError`: a frame could not be moved.
* `ProtocolError`: all of these, messages of a wrong shape, and calls out of order.

A proof that does not check out is no error.
-/

namespace SigmaProofs

/-! ## Unusable configurations and inputs -/

/-- Why a group is refused. -/
inductive GroupFault where
  | notConfigured
  | notPrimeOrderSubgroup
  | failedValidation
deriving DecidableEq, Repr

def GroupFault.message : GroupFault → String
  | .notConfigured => "no Z_p^* group is configured"
  | .notPrimeOrderSubgroup => "(p, q, g) do not define a prime-order subgroup of Z_p^*"
  | .failedValidation => "group parameters failed validation"

/-- Why a public value or the form of an input is refused. -/
inductive InputFault where
  | unequalBases
  | witnessIndexOutOfBounds
  | singularCiphertext
  | singularRandomness
  | zeroLength
  | lengthTooLarge
  | modulusNotOdd
  | primesNotDistinct
deriving DecidableEq, Repr

def InputFault.message : InputFault → String
  | .unequalBases => "bases and powers must be non-empty and have equal lengths"
  | .witnessIndexOutOfBounds => "OR witness index is out of bounds"
  | .singularCiphertext => "ciphertext is not invertible modulo n^(s + 1)"
  | .singularRandomness => "ciphertext randomness is not invertible modulo n"
  | .zeroLength => "Damgård–Jurik length parameter must be positive"
  | .lengthTooLarge => "Damgård–Jurik length parameter is too large"
  | .modulusNotOdd => "Damgård–Jurik modulus must be an odd number greater than 3"
  | .primesNotDistinct => "Damgård–Jurik primes must be distinct odd primes"

/-- A protocol object cannot be built, or an input does not fit it. -/
inductive ConfigError where
  | unalignedSoundness (bits : Nat)
  | soundnessTooLarge (soundnessBits orderBits : Nat)
  | soundnessTooLargeForModulus (soundnessBits modulusBits : Nat)
  | invalidGroup (fault : GroupFault)
  | groupParameter (name : String)
  | soundnessMismatch (index expected actual : Nat)
  | branchCount (min actual : Nat)
  | inputBranchCount (expected actual : Nat)
  | inputMismatch (expected actual : String)
  | witnessCount (actual : Nat)
  | sparseBranches
  | invalidInput (fault : InputFault)
deriving DecidableEq, Repr

def ConfigError.message : ConfigError → String
  | .unalignedSoundness bits =>
    s!"soundness parameter must be a positive multiple of 8, got {bits}"
  | .soundnessTooLarge soundnessBits orderBits =>
    s!"soundness parameter {soundnessBits} is too large for the group order " ++
      s!"({orderBits} bits); 2^t < q must hold"
  | .soundnessTooLargeForModulus soundnessBits modulusBits =>
    s!"soundness parameter {soundnessBits} is too large for a {modulusBits}-bit modulus; " ++
      "3t < |n| must hold"
  | .invalidGroup fault => "invalid group: " ++ fault.message
  | .groupParameter name => "cannot parse group parameter \x60" ++ name ++ "\x60"
  | .soundnessMismatch index expected actual =>
    s!"soundness parameter of branch #{index} ({actual}) differs from the one " ++
      s!"of the composition ({expected})"
  | .branchCount min actual => s!"composition requires at least {min} branches, got {actual}"
  | .inputBranchCount expected actual =>
    s!"input has {actual} branches, while the composition has {expected}"
  | .inputMismatch expected actual => s!"expected {expected} input, got {actual}"
  | .witnessCount actual => s!"OR composition requires exactly one real witness, got {actual}"
  | .sparseBranches => "OR composition branches must be indexed 0..k without gaps"
  | .invalidInput fault => "invalid input: " ++ fault.message

/-! ## Deviations of the other party -/

/-- The other party broke the form of the protocol. -/
inductive Deviation where
  | challengeLength (expected actual : Nat)
deriving DecidableEq, Repr

def Deviation.message : Deviation → String
  | .challengeLength expected actual => s!"challenge has {actual} bytes, expected {expected}"

/-! ## Channels -/

/-- A frame could not be sent or received. -/
inductive ChannelError where
  /-- The receiving end of a sent frame is gone. -/
  | noReceiver
  /-- Nothing is left to receive and the sending end is gone. -/
  | noSender
  /-- The own end was given up. -/
  | ownEndDropped
  /-- Nothing is queued, but the peer may still send. -/
  | nothingQueued
  /-- A frame to be sent exceeds the limit. -/
  | frameTooLarge
  /-- A length prefix that was read exceeds the limit. -/
  | incomingTooLarge
  /-- The stream ended inside a frame or where one was expected. -/
  | streamEnded
deriving DecidableEq, Repr

def ChannelError.message : ChannelError → String
  | .noReceiver | .noSender => "channel peer hung up"
  | .ownEndDropped => "end is dropped"
  | .nothingQueued => "no frame is queued"
  | .frameTooLarge => "frame is too large"
  | .incomingTooLarge => "incoming frame is too large"
  | .streamEnded => "failed to fill whole buffer"

/-- The moves of frames in an interactive run. -/
inductive Transfer where
  | sendingFirst
  | receivingFirst
  | sendingChallenge
  | receivingChallenge
  | sendingSecond
  | receivingSecond
deriving DecidableEq, Repr

def Transfer.message : Transfer → String
  | .sendingFirst => "sending first message"
  | .receivingFirst => "receiving first message"
  | .sendingChallenge => "sending challenge"
  | .receivingChallenge => "receiving challenge"
  | .sendingSecond => "sending second message"
  | .receivingSecond => "receiving second message"

/-! ## Runs of a protocol -/

/-- A call that is out of order. -/
inductive Misuse where
  /-- A response was asked for without a pending first message. -/
  | respondBeforeCommit
  /-- A verdict was asked for without a challenge. -/
  | verifyBeforeChallenge
  | firstMessageAgain
  | secondMessageBeforeFirst
  | challengeAgain
  | challengeNotSet
  | verdictBeforeChallengeSent
deriving DecidableEq, Repr

/-- The name of the call that was refused. -/
def Misuse.operation : Misuse → String
  | .respondBeforeCommit => "compute_second_message"
  | .verifyBeforeChallenge => "verify"
  | .firstMessageAgain => "process_first_message"
  | .secondMessageBeforeFirst => "process_second_message"
  | .challengeAgain | .challengeNotSet => "send_challenge"
  | .verdictBeforeChallengeSent => "process_verify"

/-- The moment at which the call was made. -/
def Misuse.moment : Misuse → String
  | .respondBeforeCommit => "before the first message"
  | .verifyBeforeChallenge | .challengeNotSet => "before a challenge is set"
  | .firstMessageAgain => "after the first message was sent"
  | .secondMessageBeforeFirst => "before the first message was sent"
  | .challengeAgain => "after the challenge was sent"
  | .verdictBeforeChallengeSent => "before the challenge was sent"

/-- A run of a protocol failed. -/
inductive ProtocolError where
  | config (cause : ConfigError)
  | deviation (cause : Deviation)
  | communication (transfer : Transfer) (cause : ChannelError)
  | undecodableMessage
  | messageMismatch (expected actual : String)
  | illegalState (misuse : Misuse)
deriving DecidableEq, Repr

namespace ProtocolError

def message : ProtocolError → String
  | .config cause => cause.message
  | .deviation cause => "cheat attempt detected: " ++ cause.message
  | .communication transfer _ => "communication failure while " ++ transfer.message
  | .undecodableMessage => "cannot decode sigma message"
  | .messageMismatch expected actual => s!"expected {expected} message, got {actual}"
  | .illegalState misuse => "\x60" ++ misuse.operation ++ "\x60 cannot be called " ++ misuse.moment

/-- Whether the other party is to blame. -/
def isDeviation : ProtocolError → Bool
  | .deviation _ => true
  | _ => false

end ProtocolError

end SigmaProofs
