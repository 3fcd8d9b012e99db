import SigmaProofs.Group
import SigmaProofs.Message
import SigmaProofs.Statement

/-!
# Proofs about one exponent

Three protocols show that the prover knows `w` with `power = base ^ w`: for the generator
(`Dlog`), for the generator and one more base (`DhTuple`), and for any list of bases
(`DhExtended`). The commitments are `base ^ r`, the response to `e` is `z = r + e * w`, and the
equations are `base ^ z = commitment * power ^ e`. A simulated commitment solves its equation:
`base ^ z * power ^ (-e)`.

Here are the equations as functions of the values that are drawn.
-/

namespace SigmaProofs

variable {E : Type}

/-- The response `r + e * w` modulo the order. -/
def exponentResponse (order r e w : Nat) : Nat := (r + e * w) % order

/-- The encoding of a commitment that fits the response `z` to the challenge `e`. -/
def PrimeGroup.fitting (G : PrimeGroup E) (base power : E) (e z : Nat) : Bytes :=
  G.encode (G.doublePow base z power (negMod G.order e))

/-- `base ^ z = commitment * power ^ e`. -/
def PrimeGroup.fits [DecidableEq E] (G : PrimeGroup E) (base power commitment : E)
    (e z : Nat) : Bool :=
  G.pow base z = G.mul commitment (G.pow power e)

/-! ## One base -/

namespace Dlog

def commit (G : PrimeGroup E) (r : Nat) : Message := .element (G.encode (G.powGenerator r))

def simulate (G : PrimeGroup E) (h : E) (e z : Nat) : Message :=
  .element (G.fitting G.generator h e z)

/-- Whether `h` is a member and the equation holds; not so if the commitment is no element. -/
def accepts [DecidableEq E] (G : PrimeGroup E) (h : E) (e : Nat) (a : Bytes) (z : Nat) : Bool :=
  match G.decode? a with
  | some a => G.isMember h && G.fits G.generator h a e z
  | none => false

end Dlog

/-! ## Two bases -/

namespace DhTuple

def commit (G : PrimeGroup E) (h : E) (r : Nat) : Message :=
  .elementPair (G.encode (G.powGenerator r)) (G.encode (G.pow h r))

def simulate (G : PrimeGroup E) (h u v : E) (e z : Nat) : Message :=
  .elementPair (G.fitting G.generator u e z) (G.fitting h v e z)

/-- Whether `h`, `u` and `v` are members and both equations hold. -/
def accepts [DecidableEq E] (G : PrimeGroup E) (h u v : E) (e : Nat) (a b : Bytes) (z : Nat) :
    Bool :=
  match G.decode? a, G.decode? b with
  | some a, some b =>
    G.isMember h && G.isMember u && G.isMember v &&
      G.fits G.generator u a e z && G.fits h v b e z
  | _, _ => false

end DhTuple

/-! ## Any number of bases -/

namespace DhExtended

def commit (G : PrimeGroup E) (bases : List E) (r : Nat) : Message :=
  .multiple (bases.map fun base => .element (G.encode (G.pow base r)))

def simulate (G : PrimeGroup E) (bases powers : List E) (e z : Nat) : Message :=
  .multiple (bases.zipWith (fun base power => .element (G.fitting base power e z)) powers)

/-- Whether every base and power is a member and every equation holds. The commitments are taken
one after another, up to the first that is no element. -/
def accepts [DecidableEq E] (G : PrimeGroup E) (e z : Nat) :
    List E → List E → List Message → Except ProtocolError Bool
  | base :: bases, power :: powers, commitment :: commitments => do
    let encoding ← commitment.expectElement
    match G.decode? encoding with
    | some a =>
      let others ← accepts G e z bases powers commitments
      return G.isMember base && G.isMember power && G.fits base power a e z && others
    | none => return false
  | _, _, _ => return true

end DhExtended

end SigmaProofs
