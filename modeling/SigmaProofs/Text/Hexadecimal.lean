import SigmaProofs.Json.Reader
import SigmaProofs.Text.Blank

/-!
# Hexadecimal numbers as people write them

Blanks at both ends, one `0x`, one plus sign and underscores between the digits are passed over;
a number has to begin with a digit.
-/

namespace SigmaProofs.Text

/-- The number with the given hexadecimal digits; underscores are passed over. -/
def hexDigits? (n : Nat) : List Char → Option Nat
  | [] => some n
  | '_' :: text => hexDigits? n text
  | c :: text =>
    match Json.hexDigit? c with
    | some d => hexDigits? (16 * n + d) text
    | none => none

/-- The number that a text stands for. -/
def readHex? (text : List Char) : Option Nat :=
  let text := trim text
  let text := match text with
    | '0' :: 'x' :: text => text
    | _ => text
  let text := match text with
    | '+' :: text => text
    | _ => text
  match text with
  | [] | '_' :: _ => none
  | _ => hexDigits? 0 text

end SigmaProofs.Text
