import SigmaProofs.Sampling

/-!
# Groups with a generator of prime order

`PrimeGroup E` is a group on values of `E` as the protocols use it: its operations, its order `q`,
and an encoding of its elements. The type may hold values that do not belong to the group;
`isMember` tells them apart, and the operations are defined on them too. Whether the parameters
describe a group of prime order is decided by `isValid`.
-/

namespace SigmaProofs

/-- A group with a generator of order `q`. -/
structure PrimeGroup (E : Type) where
  generator : E
  order : Nat
  identity : E
  pow : E → Nat → E
  mul : E → E → E
  inv : E → E
  isMember : E → Bool
  /-- Whether the parameters describe a group of prime order; computed once. -/
  validity : Thunk Bool
  encode : E → Bytes
  /-- The member with the given encoding. -/
  decode? : Bytes → Option E

namespace PrimeGroup

variable {E : Type}

def isValid (G : PrimeGroup E) : Bool := G.validity.get

/-- A power of the generator. -/
def powGenerator (G : PrimeGroup E) (x : Nat) : E := G.pow G.generator x

/-- `a ^ x * b ^ y`. -/
def doublePow (G : PrimeGroup E) (a : E) (x : Nat) (b : E) (y : Nat) : E :=
  G.mul (G.pow a x) (G.pow b y)

/-- A random exponent below the order. -/
def drawExponent (G : PrimeGroup E) : Sampling Nat := .drawBelow G.order

end PrimeGroup

end SigmaProofs
