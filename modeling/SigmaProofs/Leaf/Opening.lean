import SigmaProofs.Leaf.Exponent

/-!
# Proofs about the opening of a Pedersen commitment

The prover knows `x` and `r` with `c = g ^ r * h ^ x`. The commitment is
`h ^ alpha * g ^ beta`, the response to `e` is `u = alpha + e * x` and `v = beta + e * r`, and the
equation is `h ^ u * g ^ v = commitment * c ^ e`.
-/

namespace SigmaProofs.Opening

variable {E : Type}

def commit (G : PrimeGroup E) (h : E) (alpha beta : Nat) : Message :=
  .element (G.encode (G.doublePow h alpha G.generator beta))

def respond (order alpha beta e x r : Nat) : Message :=
  .opening (exponentResponse order alpha e x) (exponentResponse order beta e r)

def simulate (G : PrimeGroup E) (h c : E) (e u v : Nat) : Message :=
  .element (G.encode
    (G.mul (G.doublePow h u G.generator v) (G.pow c (negMod G.order e))))

/-- Whether the key and the commitment `c` are members and the equation holds. -/
def accepts [DecidableEq E] (G : PrimeGroup E) (h c : E) (e : Nat) (a : Bytes) (u v : Nat) :
    Bool :=
  match G.decode? a with
  | some a =>
    G.isMember h && G.isMember c &&
      G.doublePow h u G.generator v = G.mul a (G.pow c e)
  | none => false

end SigmaProofs.Opening
