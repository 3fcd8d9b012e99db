import SigmaProofs.Channel

/-!
# Channels with a log

`Channel.logged` is a channel together with a log of what was moved over it, seen from one end. The
log is only written: a call over a logged channel does what it does over the channel.

* `logged_send_cases`, `logged_receive_cases`: what an operation does, with and without the log.
-/

namespace SigmaProofs

/-- What one side of a conversation did: it chose a challenge or moved a frame. -/
inductive Event where
  | chose (challenge : Bytes)
  | sent (frame : Bytes)
  | received (frame : Bytes)
deriving DecidableEq, Repr

namespace Event

/-- The frame that was sent, if one was. -/
def sent? : Event → Option Bytes
  | sent frame => some frame
  | chose _ | received _ => none

/-- The frame that was received, if one was. -/
def received? : Event → Option Bytes
  | received frame => some frame
  | chose _ | sent _ => none

end Event

namespace Channel

variable {C : Type}

/-- The channel with a log of the frames that were moved. -/
def logged (channel : Channel C) : Channel (C × List Event) where
  send frame state :=
    match channel.send frame state.1 with
    | (.ok (), c) => (.ok (), c, state.2 ++ [.sent (Bytes.ofFrame frame)])
    | (.error err, c) => (.error err, c, state.2)
  receive state :=
    match channel.receive state.1 with
    | (.ok frame, c) => (.ok frame, c, state.2 ++ [.received (Bytes.ofFrame frame)])
    | (.error err, c) => (.error err, c, state.2)

/-- A frame is sent and logged, or it is not sent. -/
theorem logged_send_cases (channel : Channel C) (frame : ByteArray) (c : C) (log : List Event) :
    (∃ c', channel.send frame c = (.ok (), c') ∧
      channel.logged.send frame (c, log) = (.ok (), c', log ++ [.sent (Bytes.ofFrame frame)])) ∨
    (∃ err c', channel.send frame c = (.error err, c') ∧
      channel.logged.send frame (c, log) = (.error err, c', log)) := by
  simp only [logged]
  obtain ⟨err | -, c'⟩ := channel.send frame c
  · exact .inr ⟨err, c', rfl, rfl⟩
  · exact .inl ⟨c', rfl, rfl⟩

/-- A frame is received and logged, or none is. -/
theorem logged_receive_cases (channel : Channel C) (c : C) (log : List Event) :
    (∃ frame c', channel.receive c = (.ok frame, c') ∧
      channel.logged.receive (c, log) =
        (.ok frame, c', log ++ [.received (Bytes.ofFrame frame)])) ∨
    (∃ err c', channel.receive c = (.error err, c') ∧
      channel.logged.receive (c, log) = (.error err, c', log)) := by
  simp only [logged]
  obtain ⟨err | frame, c'⟩ := channel.receive c
  · exact .inr ⟨err, c', rfl, rfl⟩
  · exact .inl ⟨frame, c', rfl, rfl⟩

end Channel

end SigmaProofs
