import SigmaProofs.Sampling.ByteStream

/-!
# A reproducible stream of bytes

SplitMix64 adds a constant to its 64-bit state and scrambles the sum, so its `i`-th word is a
function of the seed and of `i` alone. Each word gives eight bytes, least significant first.
`ByteStream.ofSeed` puts a given tape of bytes in front.
-/

namespace SigmaProofs

namespace SplitMix

/-- The step between two states. -/
def step : UInt64 := 0x9E3779B97F4A7C15

/-- Spreads the bits of a state over a word. -/
def scramble (state : UInt64) : UInt64 :=
  let z := (state ^^^ (state >>> 30)) * 0xBF58476D1CE4E5B9
  let z := (z ^^^ (z >>> 27)) * 0x94D049BB133111EB
  z ^^^ (z >>> 31)

/-- The word with the given index. -/
def word (seed : UInt64) (index : Nat) : UInt64 :=
  scramble (seed + step * UInt64.ofNat (index + 1))

/-- The byte with the given index. -/
def byteAt (seed : UInt64) (index : Nat) : UInt8 :=
  (word seed (index / 8) >>> (8 * UInt64.ofNat (index % 8))).toUInt8

end SplitMix

/-- The bytes of the tape, then those that the seed determines. -/
def ByteStream.ofSeed (seed : UInt64) (tape : ByteArray) : ByteStream where
  byteAt i := if h : i < tape.size then tape[i] else SplitMix.byteAt seed (i - tape.size)
  drawn := 0

end SigmaProofs
