import SigmaProofs.Bytes
import SigmaProofs.Error

/-!
# Channels

A channel moves frames of bytes both ways. Its operations change a state of some type `C`, and
return the new state also when they fail.
-/

namespace SigmaProofs

/-- Sending and receiving frames, as operations on the state of a channel. -/
structure Channel (C : Type) where
  send : ByteArray → C → Except ChannelError Unit × C
  receive : C → Except ChannelError ByteArray × C

/-- The frame with the given bytes. -/
def Bytes.toFrame (bs : Bytes) : ByteArray := ⟨bs.toArray⟩

/-- The bytes of a frame. -/
def Bytes.ofFrame (frame : ByteArray) : Bytes := frame.data.toList

@[simp] theorem Bytes.ofFrame_toFrame (bs : Bytes) : Bytes.ofFrame bs.toFrame = bs := rfl

end SigmaProofs
