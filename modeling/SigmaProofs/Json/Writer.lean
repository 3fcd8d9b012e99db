/-!
# Writing JSON text

Text is written without blanks. In a string a quote, a backslash and the control characters are
escaped, all other characters stand for themselves.
-/

namespace SigmaProofs.Json

/-- The lower-case hexadecimal digit of a number below 16. -/
def hexChar (n : Nat) : Char :=
  if n < 10 then Char.ofNat ('0'.toNat + n) else Char.ofNat ('a'.toNat + (n - 10))

/-- A character inside a string. -/
def escape (c : Char) : List Char :=
  if c = '"' then ['\\', '"']
  else if c = '\\' then ['\\', '\\']
  else if c = '\x08' then ['\\', 'b']
  else if c = '\x0c' then ['\\', 'f']
  else if c = '\n' then ['\\', 'n']
  else if c = '\r' then ['\\', 'r']
  else if c = '\t' then ['\\', 't']
  else if c < ' ' then
    ['\\', 'u', '0', '0', hexChar (c.toNat / 16), hexChar (c.toNat % 16)]
  else [c]

/-- A string in quotes. -/
def quote (text : List Char) : List Char := '"' :: (text.flatMap escape ++ ['"'])

/-- A natural number in decimal. -/
def decimal (n : Nat) : List Char := Nat.toDigits 10 n

/-- The parts with commas between them. -/
def commaSeparated : List (List Char) → List Char
  | [] => []
  | [part] => part
  | part :: parts => part ++ ',' :: commaSeparated parts

def writeArray (items : List (List Char)) : List Char := '[' :: (commaSeparated items ++ [']'])

/-- An object with the given names and written values. -/
def writeObject (entries : List (String × List Char)) : List Char :=
  '\x7b' :: (commaSeparated (entries.map fun (name, value) =>
    quote name.toList ++ ':' :: value) ++ ['\x7d'])

end SigmaProofs.Json
