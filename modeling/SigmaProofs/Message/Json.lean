import SigmaProofs.Base64Url
import SigmaProofs.Json.Reader
import SigmaProofs.Json.Writer
import SigmaProofs.Message.Binary

/-!
# The JSON format of messages

A message is an object with one entry, named for its form. A byte string is a base64url string,
and an integer the array of its 32-bit words, least significant first. Forms with several fields
are objects; an array of the fields in order is read as well.
-/

namespace SigmaProofs

/-! ## The parts of a message -/

namespace Json

def writeBytes (bs : Bytes) : List Char := quote (Base64Url.encode bs)

def writeInteger (n : Nat) : List Char := writeArray ((Binary.words n).map decimal)

def readBytes : Decoder Char Bytes := do .ofOption (Base64Url.decode? (← string))

/-- An integer, for which one container is opened. -/
def readInteger (room : Nat) : Decoder Char Nat :=
  Binary.ofWords <$> array room fun _ => word

end Json

open Json

namespace Message

mutual

/-- The JSON text of a message. -/
def toJson : Message → List Char
  | element encoding => writeObject [("Element", writeBytes encoding)]
  | integer value => writeObject [("BigInt", writeInteger value)]
  | elementPair a b =>
    writeObject [("Dh", writeObject [("a", writeBytes a), ("b", writeBytes b)])]
  | opening u v =>
    writeObject [("Pedersen", writeObject [("u", writeInteger u), ("v", writeInteger v)])]
  | productCommitment a1 a2 =>
    writeObject [("DjProductFirst",
      writeObject [("a1", writeInteger a1), ("a2", writeInteger a2)])]
  | productResponse z1 z2 z3 =>
    writeObject [("DjProductSecond",
      writeObject [("z1", writeInteger z1), ("z2", writeInteger z2), ("z3", writeInteger z3)])]
  | multiple parts => writeObject [("Multiple", writeArray (toJsonAll parts))]
  | orResponse challenges responses =>
    writeObject [("Or", writeObject [("challenges", writeArray (challenges.map writeBytes)),
      ("responses", writeArray (toJsonAll responses))])]

/-- The JSON texts of several messages. -/
def toJsonAll : List Message → List (List Char)
  | [] => []
  | m :: ms => toJson m :: toJsonAll ms

end

/-- Two byte strings as fields of the given names. -/
def readBytesPair (first second : String) (room : Nat) : Decoder Char (Bytes × Bytes) := do
  match ← values room [(first, fun _ => readBytes), (second, fun _ => readBytes)] with
  | [a, b] => return (a, b)
  | _ => .malformed

/-- Integers as fields of the given names. -/
def readIntegers (names : List String) (room : Nat) : Decoder Char (List Nat) :=
  values room (names.map fun name => (name, readInteger))

/-- The fields of the response of an OR composition. -/
inductive OrField where
  | challenges (bytes : List Bytes)
  | responses (messages : List Message)

/-- Reads a message, given the room for containers that is left. -/
def jsonDecoder : Nat → Decoder Char Message
  | room + 3 => variant (room + 3) fun
    | "Element" => some fun _ => element <$> readBytes
    | "BigInt" => some fun room => integer <$> readInteger room
    | "Dh" => some fun room => do
      let (a, b) ← readBytesPair "a" "b" room
      return elementPair a b
    | "Pedersen" => some fun room => do
      match ← readIntegers ["u", "v"] room with
      | [u, v] => return opening u v
      | _ => .malformed
    | "DjProductFirst" => some fun room => do
      match ← readIntegers ["a1", "a2"] room with
      | [a1, a2] => return productCommitment a1 a2
      | _ => .malformed
    | "DjProductSecond" => some fun room => do
      match ← readIntegers ["z1", "z2", "z3"] room with
      | [z1, z2, z3] => return productResponse z1 z2 z3
      | _ => .malformed
    | "Multiple" => some fun _ =>
      multiple <$> .inContainer (array (room + 2) fun _ => jsonDecoder (room + 1))
    | "Or" => some fun room' => do
      let found ← values room' [
        ("challenges", fun room => .challenges <$> array room fun _ => readBytes),
        ("responses", fun _ =>
          .responses <$> .inContainer (array (room + 1) fun _ => jsonDecoder room))]
      match found with
      | [OrField.challenges challenges, OrField.responses responses] =>
        return orResponse challenges responses
      | _ => .malformed
    | _ => none
  | _ => .malformed

/-- The message that a JSON text stands for. -/
def ofJson (text : String) : Except DecodeFault Message :=
  readText (jsonDecoder room₀) text

end Message

end SigmaProofs
