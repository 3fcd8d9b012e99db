import SigmaProofs.Channel

/-!
# A pair of connected channel ends

Each end has a queue of the frames sent to it. An end can be dropped: then nothing more can be
sent to it, and its peer still receives what was sent before. Where a receiver would have to wait
for its peer, `receive` fails.
-/

namespace SigmaProofs

/-- One of the two ends. -/
inductive End where
  | a
  | b
deriving DecidableEq, Repr

def End.peer : End → End
  | a => b
  | b => a

/-- One end of a pair: the frames that wait for it, the oldest first, and whether it is in use. -/
structure Mailbox where
  queue : List ByteArray := []
  isOpen : Bool := true

/-- Both ends of a pair. -/
structure MemoryPair where
  a : Mailbox := {}
  b : Mailbox := {}

namespace MemoryPair

def mailbox (pair : MemoryPair) : End → Mailbox
  | .a => pair.a
  | .b => pair.b

def update (pair : MemoryPair) (mailbox : Mailbox) : End → MemoryPair
  | .a => { pair with a := mailbox }
  | .b => { pair with b := mailbox }

/-- Sends a frame from the given end to its peer. -/
def send (side : End) (frame : ByteArray) (pair : MemoryPair) :
    Except ChannelError Unit × MemoryPair :=
  let target := pair.mailbox side.peer
  if !(pair.mailbox side).isOpen then (.error .ownEndDropped, pair)
  else if !target.isOpen then (.error .noReceiver, pair)
  else (.ok (), pair.update { target with queue := target.queue ++ [frame] } side.peer)

/-- The oldest frame that waits for the given end. -/
def receive (side : End) (pair : MemoryPair) : Except ChannelError ByteArray × MemoryPair :=
  let own := pair.mailbox side
  if !own.isOpen then (.error .ownEndDropped, pair)
  else
    match own.queue with
    | frame :: queue => (.ok frame, pair.update { own with queue } side)
    | [] =>
      if (pair.mailbox side.peer).isOpen then (.error .nothingQueued, pair)
      else (.error .noSender, pair)

/-- Gives up an end and the frames that wait for it. -/
def drop (side : End) (pair : MemoryPair) : MemoryPair :=
  pair.update { queue := [], isOpen := false } side

/-- The channel at one end of a pair. -/
def channel (side : End) : Channel MemoryPair where
  send := send side
  receive := receive side

end MemoryPair

end SigmaProofs
