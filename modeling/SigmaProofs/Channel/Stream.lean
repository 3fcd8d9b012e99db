import SigmaProofs.Channel

/-!
# Frames on a byte stream

A frame is written as its length in four bytes, most significant first, followed by its bytes. A
frame of more than 16 MiB is not sent, and a length above that is not accepted. A frame that is
cut short consumes what is left of the stream.
-/

namespace SigmaProofs

/-- The length of the longest frame. -/
def maxFrameLength : Nat := 2 ^ (24 : Nat)

/-- A stream that was written to and read from: the bytes written, those that come in, and how many
of the latter were consumed. -/
structure ByteStreamPair where
  written : ByteArray := .empty
  incoming : ByteArray
  consumed : Nat := 0

namespace ByteStreamPair

/-- The prefix of a frame of the given length. -/
def lengthPrefix (length : Nat) : Bytes := (littleEndian 4 length).reverse

/-- Writes a frame. -/
def send (frame : ByteArray) (s : ByteStreamPair) : Except ChannelError Unit × ByteStreamPair :=
  if maxFrameLength < frame.size then (.error .frameTooLarge, s)
  else
    (.ok (), { s with written := s.written ++ (lengthPrefix frame.size).toFrame ++ frame })

/-- The next `count` bytes of the incoming stream, if it has that many. -/
def readExactly (count : Nat) (s : ByteStreamPair) :
    Except ChannelError ByteArray × ByteStreamPair :=
  if s.consumed + count ≤ s.incoming.size then
    (.ok (s.incoming.extract s.consumed (s.consumed + count)),
      { s with consumed := s.consumed + count })
  else (.error .streamEnded, { s with consumed := s.incoming.size })

/-- Reads a frame. -/
def receive (s : ByteStreamPair) : Except ChannelError ByteArray × ByteStreamPair :=
  match s.readExactly 4 with
  | (.error err, s) => (.error err, s)
  | (.ok header, s) =>
    let length := (Bytes.ofFrame header).toNat
    if maxFrameLength < length then (.error .incomingTooLarge, s)
    else s.readExactly length

/-- The channel over a stream. -/
def channel : Channel ByteStreamPair where
  send := send
  receive := receive

end ByteStreamPair

end SigmaProofs
