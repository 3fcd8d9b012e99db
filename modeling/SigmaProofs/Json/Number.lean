import SigmaProofs.Arithmetic.Rounding

/-!
# JSON numbers

`Decimal.read?` reads a number without its sign from the front of a text, as an integer times a
power of ten. The integer has to fit 64 bits: digits that find no room in it (`appendDigits`) only
count for the power of ten. `Decimal.isOutOfRange` tells the numbers too large for double precision.
-/

namespace SigmaProofs.Json

/-! ## Digits -/

/-- The digits at the front of a text, and the rest. -/
def spanDigits (text : List Char) : List Char × List Char :=
  (text.takeWhile Char.isDigit, text.dropWhile Char.isDigit)

/-- The number `n` with the digit `c` written behind it. -/
def appendDigit (n : Nat) (c : Char) : Nat := 10 * n + (c.toNat - '0'.toNat)

/-- The number with the given decimal digits. -/
def ofDecimal (ds : List Char) : Nat := ds.foldl appendDigit 0

/-- The digits of an integer part: no zero in front of other digits. -/
def integerPart (text : List Char) : Option (List Char × List Char) :=
  match spanDigits text with
  | ([], _) => none
  | ('0' :: _ :: _, _) => none
  | (ds, rest) => some (ds, rest)

/-- Writes digits behind `n` up to the first with which it would not fit 64 bits: the number, and
the digits that are left over. -/
def appendDigits (n : Nat) : List Char → Nat × List Char
  | [] => (n, [])
  | c :: cs =>
    if appendDigit n c < 2 ^ (64 : Nat) then appendDigits (appendDigit n c) cs else (n, c :: cs)

/-! ## Numbers with fraction and exponent -/

/-- The number `significand * 10 ^ exponent`. -/
structure Decimal where
  significand : Nat
  exponent : Int

namespace Decimal

/-- The number with the given digits before and behind the point, times a power of ten. A digit
of the integer part that is left over counts as one place more, and a digit of the fraction
that is left over does not count. -/
def ofDigits (whole fraction : List Char) (exponent : Int) : Decimal :=
  let (n, dropped) := appendDigits 0 whole
  let (n, ignored) := appendDigits n fraction
  ⟨n, exponent + dropped.length - (fraction.length - ignored.length)⟩

/-- A fraction with its point, if there is one: its digits. -/
def fraction? : List Char → Option (List Char × List Char)
  | '.' :: text =>
    match spanDigits text with
    | ([], _) => none
    | (ds, rest) => some (ds, rest)
  | text => some ([], text)

/-- An exponent with the letter in front of it, if there is one; zero otherwise. -/
def exponent? : List Char → Option (Int × List Char)
  | [] => some (0, [])
  | c :: text =>
    if c == 'e' || c == 'E' then
      let (sign, text) : Int × List Char := match text with
        | '-' :: text => (-1, text)
        | '+' :: text => (1, text)
        | _ => (1, text)
      match spanDigits text with
      | ([], _) => none
      | (ds, rest) => some (sign * ofDecimal ds, rest)
    else some (0, c :: text)

/-- Reads a number without its sign. -/
def read? (text : List Char) : Option (Decimal × List Char) := do
  let (whole, rest) ← integerPart text
  let (fraction, rest) ← fraction? rest
  let (exponent, rest) ← exponent? rest
  return (ofDigits whole fraction exponent, rest)

/-- The significant bits of double-precision numbers. -/
def precision : Nat := 53

/-- The numbers from here on round to none of double precision: the middle between the largest of
them, `2 ^ 1024 - 2 ^ 971`, and the power of two that follows it. -/
def overflowBound : Nat := 2 ^ (1024 : Nat) - 2 ^ (970 : Nat)

/-- The exponent of the largest power of ten in the range of double precision. -/
def maxExponent : Nat := 308

/-- Whether the number is beyond the range of double precision. What counts is the product of
significand and power of ten after each of them has been rounded. A negative power of ten makes
no number of 64 bits too large. -/
def isOutOfRange (d : Decimal) : Bool :=
  if d.significand = 0 || d.exponent < 0 then false
  else if maxExponent < d.exponent then true
  else
    let power := 10 ^ d.exponent.toNat
    overflowBound ≤ roundToBits precision d.significand * roundToBits precision power

end Decimal

end SigmaProofs.Json
