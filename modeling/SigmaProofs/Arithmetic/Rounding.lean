import SigmaProofs.Bytes

/-!
# Rounding to a number of significant bits

* `roundQuotient n d`: the integer nearest to `n / d`, the even one if two are as near.
* `roundToBits p n`: the nearest number to `n` that has at most `p` significant bits.
-/

namespace SigmaProofs

/-- The integer nearest to `n / d`; of two that are as near, the even one. -/
def roundQuotient (n d : Nat) : Nat :=
  let q := n / d
  let r := n % d
  if 2 * r < d ∨ 2 * r = d ∧ q % 2 = 0 then q else q + 1

/-- The number with at most `p` significant bits that is nearest to `n`; of two that are as near,
the one whose last significant bit is zero. -/
def roundToBits (p n : Nat) : Nat :=
  let unit := 2 ^ (bitLength n - p)
  roundQuotient n unit * unit

end SigmaProofs
