import SigmaProofs.Group
import SigmaProofs.Statement

/-!
# Pedersen commitments

The commitment to `x` with randomness `r` under the key `h` is `g ^ r * h ^ x`.
-/

namespace SigmaProofs.Pedersen

variable {E : Type}

/-- `g ^ randomness * h ^ value`. -/
def commit (G : PrimeGroup E) (h : E) (value randomness : Nat) : E :=
  G.doublePow G.generator randomness h value

/-- A commitment with its key and its opening. -/
structure Commitment (E : Type) where
  key : E
  commitment : E
  value : Nat
  randomness : Nat

namespace Commitment

/-- The commitment to a value, reduced modulo the order, with fresh randomness. -/
def random (G : PrimeGroup E) (key : E) (value : Nat) : Sampling (Commitment E) := do
  let randomness ← G.drawExponent
  let value := value % G.order
  return { key, commitment := commit G key value randomness, value, randomness }

/-- The opening is known. -/
def openingInput (c : Commitment E) : Witnessed E where
  statement := .pedersenKnowledge c.key c.commitment
  witness := .opening c.value c.randomness

/-- The randomness is known, and the value is public. -/
def valueInput (c : Commitment E) : Witnessed E where
  statement := .pedersenValue c.key c.commitment c.value
  witness := .exponent c.randomness

end Commitment

end SigmaProofs.Pedersen
