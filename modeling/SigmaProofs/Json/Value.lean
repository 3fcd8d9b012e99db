import SigmaProofs.Json.Reader

/-!
# JSON values of any form

`value` reads a value of which the form is not known beforehand. Unlike values that are passed
over, it has to stay within the limit on open containers, and its numbers within the range of
double-precision numbers.
-/

namespace SigmaProofs.Json

/-- A JSON value. Entries of an object keep their order and may share a name. -/
inductive Value where
  | null
  | bool (b : Bool)
  | number
  | string (text : List Char)
  | array (items : List Value)
  | object (entries : List (List Char × Value))

/-- A number within range, with or without a sign. -/
def number : Decoder Char Unit :=
  .ofRest fun text => do
    let (d, rest) ← Decimal.read? <| match text with
      | '-' :: text => text
      | _ => text
    if d.isOutOfRange then none else some ((), rest)

/-- The entries of an object, up to its end, of which the values are read by `item`. -/
def pairs {α : Type} (item : Decoder Char α) : Nat → Bool → Decoder Char (List (List Char × α))
  | 0, _ => .malformed
  | fuel + 1, isFirst => do
    if ← another '\x7d' isFirst then
      let name ← string
      expect ':'
      let a ← item
      return (name, a) :: (← pairs item fuel false)
    else return []

/-- Reads any value, given the room for containers that is left. -/
def value : Nat → Decoder Char Value
  | 0 => do
    match ← peek with
    | some '[' | some '\x7b' => .malformed
    | _ => scalar
  | room + 1 => do
    match ← peek with
    | some '[' =>
      advance
      let vs ← items (value room) ((← Decoder.rest).length + 1) true
      expect ']'
      return .array vs
    | some '\x7b' =>
      advance
      let es ← pairs (value room) ((← Decoder.rest).length + 1) true
      expect '\x7d'
      return .object es
    | _ => scalar
where
  /-- A value that is no container. -/
  scalar : Decoder Char Value := do
    match ← peek with
    | some 'n' => literal ['n', 'u', 'l', 'l']; return .null
    | some 't' => literal ['t', 'r', 'u', 'e']; return .bool true
    | some 'f' => literal ['f', 'a', 'l', 's', 'e']; return .bool false
    | some '"' => .string <$> string
    | _ => number; return .number

end SigmaProofs.Json
