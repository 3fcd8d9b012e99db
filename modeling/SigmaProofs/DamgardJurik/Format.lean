import SigmaProofs.DamgardJurik
import SigmaProofs.Message.Json

/-!
# The formats of a public key

A key is written as its modulus and its length, and what is read has to satisfy the same
conditions as a key that is made from numbers.
-/

namespace SigmaProofs.DamgardJurik.Key

/-- The binary form: the words of the modulus, and the length in four bytes. -/
def toBytes (key : Key) : Bytes := Binary.writeInteger key.n ++ littleEndian 4 key.s

def binaryDecoder : Decoder UInt8 Key := do
  let n ← Binary.readInteger
  let s ← Binary.readWord
  .ofExcept (ofModulus n s)

def ofBytes (bs : Bytes) : Except DecodeFault Key :=
  (binaryDecoder.run bs).map Prod.fst

/-- The JSON text, an object with both numbers. -/
def toJson (key : Key) : List Char :=
  Json.writeObject [("n", Json.writeInteger key.n), ("s", Json.decimal key.s)]

def jsonDecoder (room : Nat) : Decoder Char Key := do
  match ← Json.values room [("n", Json.readInteger), ("s", fun _ => Json.word)] with
  | [n, s] => .ofExcept (ofModulus n s)
  | _ => .malformed

def ofJson (text : String) : Except DecodeFault Key :=
  Json.readText (jsonDecoder Json.room₀) text

end SigmaProofs.DamgardJurik.Key
