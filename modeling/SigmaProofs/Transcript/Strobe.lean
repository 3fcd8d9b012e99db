import SigmaProofs.Bytes
import SigmaProofs.Transcript.Keccak

/-!
# The duplex object STROBE-128

Bytes are taken in and given out at a moving position of a Keccak state; at the end of a block of
166 bytes the state is permuted. Each operation begins with the place where the one before began
and its own flags, so that the bytes of two operations cannot be confused.
-/

namespace SigmaProofs

/-- A duplex object: its state, the position in the block, and where the last operation began. -/
structure Strobe where
  state : Keccak.State
  position : Nat
  begin : Nat

namespace Strobe

/-- The length of a block. -/
def rate : Nat := 166

/-! ## Flags of operations -/

/-- Bytes are given out. -/
def flagInbound : UInt8 := 1
/-- The operation belongs to the application. -/
def flagApplication : UInt8 := 2
/-- The output depends on the state. -/
def flagCipher : UInt8 := 4
/-- The operation describes another. -/
def flagMeta : UInt8 := 16

/-- Adds a byte to the state at a place. -/
def addAt (s : Keccak.State) (i : Nat) (b : UInt8) : Keccak.State :=
  s.setIfInBounds i (s.getD i 0 ^^^ b)

/-- Ends a block. -/
def permute (s : Strobe) : Strobe where
  state := Keccak.permute
    (addAt (addAt (addAt s.state s.position (UInt8.ofNat s.begin)) (s.position + 1) 0x04)
      (rate + 1) 0x80)
  position := 0
  begin := 0

/-- Goes to the next place, and to the next block after the last. -/
def advance (s : Strobe) : Strobe :=
  let s := { s with position := s.position + 1 }
  if s.position = rate then s.permute else s

/-- Takes in a byte. -/
def absorbByte (s : Strobe) (b : UInt8) : Strobe :=
  advance { s with state := addAt s.state s.position b }

/-- Takes in bytes. -/
def absorb (s : Strobe) (bs : Bytes) : Strobe := bs.foldl absorbByte s

/-- Gives out bytes, which are erased from the state. -/
def squeeze : Strobe → Nat → Bytes × Strobe
  | s, 0 => ([], s)
  | s, n + 1 =>
    let b := s.state.getD s.position 0
    let s := advance { s with state := s.state.setIfInBounds s.position 0 }
    let (bs, s) := squeeze s n
    (b :: bs, s)

/-- Begins an operation. One whose output depends on the state begins a new block. -/
def start (s : Strobe) (flags : UInt8) : Strobe :=
  let s := { s with begin := s.position + 1 }.absorb [UInt8.ofNat s.begin, flags]
  if flags &&& flagCipher ≠ 0 ∧ s.position ≠ 0 then s.permute else s

/-- Takes in a description of the next operation. -/
def metaData (s : Strobe) (bs : Bytes) : Strobe :=
  (s.start (flagMeta ||| flagApplication)).absorb bs

/-- Takes in bytes of the application. -/
def data (s : Strobe) (bs : Bytes) : Strobe := (s.start flagApplication).absorb bs

/-- Gives out bytes that depend on all operations so far. -/
def random (s : Strobe) (count : Nat) : Bytes × Strobe :=
  (s.start (flagInbound ||| flagApplication ||| flagCipher)).squeeze count

/-- The object at the start of a protocol with the given name. -/
def ofProtocol (name : Bytes) : Strobe :=
  let header : Bytes := [1, 168, 1, 0, 1, 96] ++ "STROBEv1.0.2".toUTF8.toList
  metaData ⟨Keccak.permute (Vector.ofFn fun i => header.getD i.val 0), 0, 0⟩ name

end Strobe

end SigmaProofs
