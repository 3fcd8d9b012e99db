import SigmaProofs.Decoding
import SigmaProofs.Message

/-!
# The binary format of messages

Numbers of fixed width are little-endian. A message is the index of its form in four bytes,
followed by its fields; a list is its length in eight bytes, followed by its items. A byte string
is a list of bytes, and an integer is the list of its 32-bit words, least significant first and
without a zero word at the end; zero words at the end are read all the same. What follows a
message is not read.
-/

namespace SigmaProofs

/-! ## The parts of a message -/

namespace Binary

/-- The 32-bit words of a number, least significant first. -/
def words (n : Nat) : List Nat := digits (2 ^ (32 : Nat)) n

/-- The number with the given 32-bit words. -/
def ofWords (ws : List Nat) : Nat := ofDigits (2 ^ (32 : Nat)) ws

def writeWord (w : Nat) : Bytes := littleEndian 4 w

def writeLength (n : Nat) : Bytes := littleEndian 8 n

def writeBytes (bs : Bytes) : Bytes := writeLength bs.length ++ bs

def writeInteger (n : Nat) : Bytes :=
  writeLength (words n).length ++ (words n).flatMap writeWord

/-- A byte string of the given length. -/
def readExactly (n : Nat) : Decoder UInt8 Bytes := .ofRest (splitExactly n)

def readWord : Decoder UInt8 Nat := ofLittleEndian <$> readExactly 4

def readLength : Decoder UInt8 Nat := ofLittleEndian <$> readExactly 8

def readBytes : Decoder UInt8 Bytes := do readExactly (← readLength)

/-- The items of a list, one after another. -/
def readList {α : Type} (item : Decoder UInt8 α) : Decoder UInt8 (List α) := do
  item.times (← readLength)

def readInteger : Decoder UInt8 Nat := ofWords <$> readList readWord

end Binary

open Binary

namespace Message

/-- The index of a message's form. -/
def index : Message → Nat
  | element _ => 0
  | integer _ => 1
  | elementPair .. => 2
  | opening .. => 3
  | productCommitment .. => 4
  | productResponse .. => 5
  | multiple _ => 6
  | orResponse .. => 7

mutual

/-- The binary form of a message. -/
def toBytes : Message → Bytes
  | element encoding => writeWord 0 ++ writeBytes encoding
  | integer value => writeWord 1 ++ writeInteger value
  | elementPair a b => writeWord 2 ++ writeBytes a ++ writeBytes b
  | opening u v => writeWord 3 ++ writeInteger u ++ writeInteger v
  | productCommitment a1 a2 => writeWord 4 ++ writeInteger a1 ++ writeInteger a2
  | productResponse z1 z2 z3 =>
    writeWord 5 ++ writeInteger z1 ++ writeInteger z2 ++ writeInteger z3
  | multiple parts => writeWord 6 ++ writeLength parts.length ++ toBytesAll parts
  | orResponse challenges responses =>
    writeWord 7 ++ writeLength challenges.length ++ challenges.flatMap writeBytes ++
      writeLength responses.length ++ toBytesAll responses

/-- The binary forms of several messages, one after another. -/
def toBytesAll : List Message → Bytes
  | [] => []
  | m :: ms => toBytes m ++ toBytesAll ms

end

/-- Reads a message. Each open container takes one of the levels; `Decoder.inContainer` refuses a
container before they run out. -/
def decoder : Nat → Decoder UInt8 Message
  | 0 => .malformed
  | levels + 1 => do
    match ← readWord with
    | 0 => return element (← readBytes)
    | 1 => return integer (← readInteger)
    | 2 => return elementPair (← readBytes) (← readBytes)
    | 3 => return opening (← readInteger) (← readInteger)
    | 4 => return productCommitment (← readInteger) (← readInteger)
    | 5 => return productResponse (← readInteger) (← readInteger) (← readInteger)
    | 6 => return multiple (← .inContainer (readList (decoder levels)))
    | 7 =>
      let challenges ← readList readBytes
      return orResponse challenges (← .inContainer (readList (decoder levels)))
    | _ => .malformed

/-- Reads a message that stands in no container. -/
def binaryDecoder : Decoder UInt8 Message := decoder (maxNesting + 1)

/-- The message at the start of a byte string. -/
def ofBytes (bs : Bytes) : Except DecodeFault Message :=
  (binaryDecoder.run bs).map Prod.fst

/-- The message in a frame that was received. -/
def ofFrame (bs : Bytes) : Except ProtocolError Message :=
  (ofBytes bs).mapError fun _ => .undecodableMessage

end Message

end SigmaProofs
