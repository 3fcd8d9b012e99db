import SigmaProofs.Decoding
import SigmaProofs.Json.Number

/-!
# Reading JSON text

The decoders here read JSON of a known form from the front of a text and stop at the first fault.

* `array item`, `record fields`, `variant payload`: a list; an object, or an array of the same
  fields in order; an object with one entry.
* `string`, `word`: a string; an integer of 32 bits without sign, fraction or exponent.
* `skipValue`: any value, passed over without a limit on its depth.

Containers that are read may only be nested up to a limit: `room` is how many more may be opened,
and `room₀` the number at the start of a text.
-/

namespace SigmaProofs.Json

/-- How many containers may be open at a time. -/
def room₀ : Nat := 127

def isBlank (c : Char) : Bool := c == ' ' || c == '\n' || c == '\t' || c == '\r'

/-- Passes over blanks; the next character, if there is one. -/
def peek : Decoder Char (Option Char) := fun c =>
  let rest := c.rest.dropWhile isBlank
  (.ok rest.head?, { c with rest })

/-- Passes over one character. -/
def advance : Decoder Char Unit := fun c => (.ok (), { c with rest := c.rest.tail })

/-- The given character, after blanks. -/
def expect (char : Char) : Decoder Char Unit := do
  if (← peek) = some char then advance else .malformed

/-- The given characters. -/
def literal (chars : List Char) : Decoder Char Unit :=
  .ofRest fun rest => if chars.isPrefixOf rest then some ((), rest.drop chars.length) else none

/-! ## Strings -/

/-- The value of a hexadecimal digit. -/
def hexDigit? (c : Char) : Option Nat :=
  if '0' ≤ c ∧ c ≤ '9' then some (c.toNat - '0'.toNat)
  else if 'a' ≤ c ∧ c ≤ 'f' then some (c.toNat - 'a'.toNat + 10)
  else if 'A' ≤ c ∧ c ≤ 'F' then some (c.toNat - 'A'.toNat + 10)
  else none

/-- The value of four hexadecimal digits. -/
def hexUnit? (a b c d : Char) : Option Nat := do
  let a ← hexDigit? a
  let b ← hexDigit? b
  let c ← hexDigit? c
  let d ← hexDigit? d
  return ((a * 16 + b) * 16 + c) * 16 + d

/-- The character that a letter after a backslash stands for. -/
def escaped? : Char → Option Char
  | '"' => some '"'
  | '\\' => some '\\'
  | '/' => some '/'
  | 'b' => some '\x08'
  | 'f' => some '\x0c'
  | 'n' => some '\n'
  | 'r' => some '\r'
  | 't' => some '\t'
  | _ => none

def isHighSurrogate (unit : Nat) : Bool := 0xD800 ≤ unit && unit < 0xDC00

def isLowSurrogate (unit : Nat) : Bool := 0xDC00 ≤ unit && unit < 0xE000

/-- The rest of a string after its opening quote, with escapes resolved, and what follows it. A
surrogate has to be half of a pair. -/
def stringBody : List Char → Option (List Char × List Char)
  | [] => none
  | '"' :: rest => some ([], rest)
  | '\\' :: 'u' :: a :: b :: c :: d :: rest => do
    let unit ← hexUnit? a b c d
    if isHighSurrogate unit then
      match rest with
      | '\\' :: 'u' :: a' :: b' :: c' :: d' :: rest =>
        let low ← hexUnit? a' b' c' d'
        if isLowSurrogate low then
          let (chars, rest) ← stringBody rest
          return (Char.ofNat (0x10000 + (unit - 0xD800) * 0x400 + (low - 0xDC00)) :: chars, rest)
        else none
      | _ => none
    else if isLowSurrogate unit then none
    else
      let (chars, rest) ← stringBody rest
      return (Char.ofNat unit :: chars, rest)
  | '\\' :: letter :: rest => do
    let char ← escaped? letter
    let (chars, rest) ← stringBody rest
    return (char :: chars, rest)
  | char :: rest =>
    if char < ' ' || char == '\\' then none
    else (stringBody rest).map fun (chars, rest) => (char :: chars, rest)

/-- A string, after blanks. -/
def string : Decoder Char (List Char) := do
  expect '"'
  .ofRest stringBody

/-! ## Numbers -/

/-- An integer from 0 up to `2^32`, after blanks. A fraction, an exponent or a sign makes another
kind of number. -/
def word : Decoder Char Nat := do
  let _ ← peek
  .ofRest fun text => do
    let (ds, rest) ← integerPart text
    if ['.', 'e', 'E'].any (rest.head? = some ·) || 2 ^ (32 : Nat) ≤ ofDecimal ds then none
    else some (ofDecimal ds, rest)

/-! ## Arrays and objects -/

/-- Opens a container if there is room for it. -/
def enter {α : Type} (room : Nat) (inside : Nat → Decoder Char α) : Decoder Char α :=
  match room with
  | 0 => .malformed
  | room + 1 => inside room

/-- Whether another item follows in a container that ends with `close`. Between items stands a
comma, and none after the last. -/
def another (close : Char) (isFirst : Bool) : Decoder Char Bool := do
  match ← peek with
  | none => .malformed
  | some c =>
    if c = close then return false
    else if isFirst then return true
    else if c = ',' then
      advance
      match ← peek with
      | none => .malformed
      | some c => if c = close then .malformed else return true
    else .malformed

/-- The items up to the end of an array; `fuel` bounds their number. -/
def items {α : Type} (item : Decoder Char α) : Nat → Bool → Decoder Char (List α)
  | 0, _ => .malformed
  | fuel + 1, isFirst => do
    if ← another ']' isFirst then
      let a ← item
      return a :: (← items item fuel false)
    else return []

/-- An array of any length. -/
def array {α : Type} (room : Nat) (item : Nat → Decoder Char α) : Decoder Char (List α) := do
  expect '['
  enter room fun room => do
    let as ← items (item room) ((← Decoder.rest).length + 1) true
    expect ']'
    return as

/-! ## Values that are passed over -/

/-- What is expected next while values are passed over. -/
inductive Awaited where
  /-- A value. -/
  | value
  /-- The first item of a container, or its end. -/
  | firstItem
  /-- A key. -/
  | key
  /-- A comma, or the end of a container. -/
  | separator

/-- The rest of a string after its opening quote is passed over. -/
def skipString : List Char → Option (List Char)
  | [] => none
  | '"' :: rest => some rest
  | '\\' :: 'u' :: a :: b :: c :: d :: rest =>
    if (hexUnit? a b c d).isSome then skipString rest else none
  | '\\' :: letter :: rest => if (escaped? letter).isSome then skipString rest else none
  | char :: rest => if char < ' ' || char == '\\' then none else skipString rest

/-- Passes over values; `closers` are the ends of the open containers, the innermost first. The
fuel bounds the number of steps, each of which takes a character. -/
def skip : Nat → Awaited → List Char → List Char → Option (List Char)
  | 0, _, _, _ => none
  | fuel + 1, awaited, closers, text =>
    let text := text.dropWhile isBlank
    match awaited with
    | .value =>
      let next (text : List Char) :=
        if closers.isEmpty then some text else skip fuel .separator closers text
      match text with
      | 'n' :: 'u' :: 'l' :: 'l' :: text => next text
      | 't' :: 'r' :: 'u' :: 'e' :: text => next text
      | 'f' :: 'a' :: 'l' :: 's' :: 'e' :: text => next text
      | '"' :: text =>
        match skipString text with
        | some text => next text
        | none => none
      | '[' :: text => skip fuel .firstItem (']' :: closers) text
      | '\x7b' :: text => skip fuel .firstItem ('\x7d' :: closers) text
      | '-' :: text =>
        match Decimal.read? text with
        | some (_, text) => next text
        | none => none
      | _ =>
        match Decimal.read? text with
        | some (_, text) => next text
        | none => none
    | .firstItem =>
      match closers, text with
      | closer :: outer, c :: rest =>
        if c = closer then
          if outer.isEmpty then some rest else skip fuel .separator outer rest
        else if closer = ']' then skip fuel .value closers text
        else skip fuel .key closers text
      | _, _ => none
    | .key =>
      match text with
      | '"' :: text =>
        match skipString text with
        | some text =>
          match text.dropWhile isBlank with
          | ':' :: text => skip fuel .value closers text
          | _ => none
        | none => none
      | _ => none
    | .separator =>
      match closers, text with
      | closer :: outer, c :: rest =>
        if c = closer then
          if outer.isEmpty then some rest else skip fuel .separator outer rest
        else if c = ',' then skip fuel (if closer = ']' then .value else .key) closers rest
        else none
      | _, _ => none

/-- Passes over any value, without a limit on its depth. -/
def skipValue : Decoder Char Unit :=
  .ofRest fun text => (skip (2 * text.length + 2) .value [] text).map ((), ·)

/-! ## Records -/

/-- A field of a record: its name and how its value is read with the room that is left. -/
abbrev FieldReader (ν : Type) := String × (Nat → Decoder Char ν)

/-- What happens to entries of other names. -/
inductive Unknown where
  | skipped
  | refused
deriving DecidableEq

/-- Which values of a record may be missing. -/
inductive Missing where
  | refused
  /-- Any; as an array, the record may end after any field. -/
  | allowed
deriving DecidableEq

/-- The entries up to the end of an object, in any order, none of them twice. -/
def entries {ν : Type} (fields : List (FieldReader ν)) (unknown : Unknown) (room : Nat) :
    Nat → Bool → List (String × ν) → Decoder Char (List (String × ν))
  | 0, _, _ => .malformed
  | fuel + 1, isFirst, found => do
    if ← another '\x7d' isFirst then
      let name := String.ofList (← string)
      match fields.find? (·.1 == name) with
      | some field =>
        if found.any (·.1 == name) then .malformed
        else
          expect ':'
          let value ← field.2 room
          entries fields unknown room fuel false ((name, value) :: found)
      | none =>
        if unknown = .refused then .malformed
        else
          expect ':'
          skipValue
          entries fields unknown room fuel false found
    else return found

/-- The fields in order, as items of an array. -/
def columns {ν : Type} (missing : Missing) (room : Nat) :
    List (FieldReader ν) → Bool → Decoder Char (List (String × ν))
  | [], _ => return []
  | (name, value) :: fields, isFirst => do
    if ← another ']' isFirst then
      let v ← value room
      return (name, v) :: (← columns missing room fields false)
    else if missing = .allowed then return []
    else .malformed

/-- An object with the given fields, or an array of them: the values by name. -/
def record {ν : Type} (room : Nat) (fields : List (FieldReader ν)) (unknown : Unknown)
    (missing : Missing) : Decoder Char (List (String × ν)) := do
  match ← peek with
  | some '[' =>
    advance
    enter room fun room => do
      let found ← columns missing room fields true
      expect ']'
      return found
  | some '\x7b' =>
    advance
    enter room fun room => do
      let found ← entries fields unknown room ((← Decoder.rest).length + 1) true []
      expect '\x7d'
      if missing = .refused && fields.any (fun field => !found.any (·.1 == field.1)) then .malformed
      else return found
  | _ => .malformed

/-- The values of a record in which no field may be missing, in the order of the fields. -/
def values {ν : Type} (room : Nat) (fields : List (FieldReader ν)) : Decoder Char (List ν) := do
  let found ← record room fields .skipped .refused
  return fields.filterMap fun field => found.lookup field.1

/-- An object with one entry, whose name selects how its value is read. -/
def variant {α : Type} (room : Nat) (payload : String → Option (Nat → Decoder Char α)) :
    Decoder Char α := do
  expect '\x7b'
  enter room fun room => do
    match payload (String.ofList (← string)) with
    | some value =>
      expect ':'
      let a ← value room
      expect '\x7d'
      return a
    | none => .malformed

/-- A whole text. -/
def readText {α : Type} (d : Decoder Char α) (text : String) : Except DecodeFault α := do
  let (a, rest) ← d.run text.toList
  if rest.all isBlank then .ok a else .error .malformed

end SigmaProofs.Json
