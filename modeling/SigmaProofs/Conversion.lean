import SigmaProofs.Leaf

/-!
# Conversions of statements

A statement about a commitment or a ciphertext with a public content is proved by dividing the
content out and proving what is left with a basic protocol. The witness stays the same.

* `pedersenValue`: `c = g ^ r * h ^ x` becomes `c * h ^ (-x) = g ^ r`.
* `elGamalKnowledge`: `h = g ^ w` for a public key `h`.
* `elGamalValue`: `c2 / m`, with the public key and `c1`, is a Diffie–Hellman tuple.
* `djValue`: `c * (1 + n) ^ (-x)` encrypts zero.
-/

namespace SigmaProofs

/-- A conversion of statements; those that compute with group elements hold the group. -/
inductive Conversion (E : Type) where
  | pedersenValue (G : PrimeGroup E)
  | elGamalKnowledge
  | elGamalValue (G : PrimeGroup E)
  | djValue

namespace Conversion

variable {E : Type}

/-- The tuple whose exponent is the secret that the prover knows. -/
def elGamalTuple (G : PrimeGroup E) (publicKey c1 c2 value : E) : ElGamalSecret → Statement E
  | .randomness => .dhTuple publicKey c1 (G.mul c2 (G.inv value))
  | .privateKey => .dhTuple c1 publicKey (G.mul c2 (G.inv value))

/-- The statement that is proved instead. -/
def apply : Conversion E → Statement E → Except ConfigError (Statement E)
  | pedersenValue G, .pedersenValue h commitment value =>
    .ok (.dlog (G.mul commitment (G.pow h (negMod G.order value))))
  | pedersenValue _, s => .error (s.unexpected "Pedersen committed value")
  | elGamalKnowledge, .elGamalKnowledge publicKey => .ok (.dlog publicKey)
  | elGamalKnowledge, s => .error (s.unexpected "ElGamal commitment knowledge")
  | elGamalValue G, .elGamalCommitted publicKey c1 c2 value =>
    .ok (elGamalTuple G publicKey c1 c2 value .randomness)
  | elGamalValue G, .elGamalEncrypted publicKey c1 c2 value secret =>
    .ok (elGamalTuple G publicKey c1 c2 value secret)
  | elGamalValue _, s => .error (s.unexpected "ElGamal committed or encrypted value")
  | djValue, .djValue key ciphertext plaintext =>
    .ok (.djZero key (key.unmask ciphertext plaintext))
  | djValue, s => .error (s.unexpected "Damgård–Jurik encrypted value")

/-- The input that is proved instead. -/
def applyInput (c : Conversion E) (input : Witnessed E) : Except ConfigError (Witnessed E) := do
  return ⟨← c.apply input.statement, input.witness⟩

end Conversion

end SigmaProofs
