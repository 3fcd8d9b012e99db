import SigmaProofs.Bytes

/-!
# Base64 with the URL-safe alphabet and without padding

Three bytes become four digits of six bits; one or two bytes at the end become two or three
digits, whose surplus bits are zero. `decode?` accepts exactly the texts that `encode` writes:
no padding, no blanks, no other alphabet, no surplus bit that is set.
-/

namespace SigmaProofs.Base64Url

/-- The character of a six-bit digit. -/
def digitChar (n : Nat) : Char :=
  if n < 26 then Char.ofNat ('A'.toNat + n)
  else if n < 52 then Char.ofNat ('a'.toNat + (n - 26))
  else if n < 62 then Char.ofNat ('0'.toNat + (n - 52))
  else if n = 62 then '-' else '_'

/-- The six-bit digit that a character stands for. -/
def digitOf? (c : Char) : Option Nat :=
  if 'A' ≤ c ∧ c ≤ 'Z' then some (c.toNat - 'A'.toNat)
  else if 'a' ≤ c ∧ c ≤ 'z' then some (c.toNat - 'a'.toNat + 26)
  else if '0' ≤ c ∧ c ≤ '9' then some (c.toNat - '0'.toNat + 52)
  else if c = '-' then some 62
  else if c = '_' then some 63
  else none

/-- The text of a byte string. -/
def encode : Bytes → List Char
  | [] => []
  | [a] => [digitChar (a.toNat / 4), digitChar (a.toNat % 4 * 16)]
  | [a, b] =>
    [digitChar (a.toNat / 4), digitChar (a.toNat % 4 * 16 + b.toNat / 16),
      digitChar (b.toNat % 16 * 4)]
  | a :: b :: c :: rest =>
    digitChar (a.toNat / 4) :: digitChar (a.toNat % 4 * 16 + b.toNat / 16) ::
      digitChar (b.toNat % 16 * 4 + c.toNat / 64) :: digitChar (c.toNat % 64) :: encode rest

/-- The byte string that a text stands for. -/
def decode? : List Char → Option Bytes
  | [] => some []
  | [_] => none
  | [c₀, c₁] => do
    let d₀ ← digitOf? c₀
    let d₁ ← digitOf? c₁
    if d₁ % 16 = 0 then some [UInt8.ofNat (d₀ * 4 + d₁ / 16)] else none
  | [c₀, c₁, c₂] => do
    let d₀ ← digitOf? c₀
    let d₁ ← digitOf? c₁
    let d₂ ← digitOf? c₂
    if d₂ % 4 = 0 then
      some [UInt8.ofNat (d₀ * 4 + d₁ / 16), UInt8.ofNat (d₁ % 16 * 16 + d₂ / 4)]
    else none
  | c₀ :: c₁ :: c₂ :: c₃ :: rest => do
    let d₀ ← digitOf? c₀
    let d₁ ← digitOf? c₁
    let d₂ ← digitOf? c₂
    let d₃ ← digitOf? c₃
    let bytes ← decode? rest
    return UInt8.ofNat (d₀ * 4 + d₁ / 16) :: UInt8.ofNat (d₁ % 16 * 16 + d₂ / 4) ::
      UInt8.ofNat (d₂ % 4 * 64 + d₃) :: bytes

/-- Every digit is read back from its character. -/
theorem digitOf?_digitChar : ∀ n, n < 64 → digitOf? (digitChar n) = some n := by decide

end SigmaProofs.Base64Url
