import SigmaProofs.Transcript.Strobe

/-!
# Transcripts

A transcript takes in labelled messages and gives out challenges that depend on all of them. Before
each message and each challenge its label and its length are taken in, so that the bytes of two
messages cannot be confused.
-/

namespace SigmaProofs

/-- A message with its label. -/
structure Labelled where
  label : String
  message : Bytes
deriving DecidableEq, Repr

/-- A transcript. -/
structure Transcript where
  strobe : Strobe

namespace Transcript

/-- The bytes of a text. -/
def textBytes (text : String) : Bytes := text.toUTF8.toList

/-- Describes an operation by its label and the length of its bytes. -/
def describe (s : Strobe) (label : String) (length : Nat) : Strobe :=
  (s.metaData (textBytes label)).absorb (littleEndian 4 length)

/-- Takes in a message. -/
def append (tr : Transcript) (m : Labelled) : Transcript :=
  ⟨(describe tr.strobe m.label m.message.length).data m.message⟩

/-- Takes in messages in order. -/
def appendAll (tr : Transcript) (ms : List Labelled) : Transcript := ms.foldl append tr

/-- Gives out a challenge of the given length. -/
def challenge (tr : Transcript) (label : String) (length : Nat) : Bytes × Transcript :=
  let (bytes, strobe) := (describe tr.strobe label length).random length
  (bytes, ⟨strobe⟩)

/-- The transcript at the start of a protocol. -/
def ofLabel (label : String) : Transcript :=
  append ⟨.ofProtocol (textBytes "Merlin v1.0")⟩ ⟨"dom-sep", textBytes label⟩

end Transcript

end SigmaProofs
