import SigmaProofs.Group
import SigmaProofs.Statement

/-!
# ElGamal encryption

A key pair is an exponent and the power of the generator with it. A ciphertext of a group element
`m` for the public key `h` is `(g ^ r, m * h ^ r)`; with the private key, `m` is found again.
-/

namespace SigmaProofs.ElGamal

variable {E : Type}

/-- A private key. -/
structure SecretKey where
  exponent : Nat

/-- A public key. -/
structure PublicKey (E : Type) where
  element : E

/-- A private key and the public key that belongs to it. -/
structure KeyPair (E : Type) where
  secret : SecretKey
  publicKey : PublicKey E

/-- An encrypted group element. -/
structure Ciphertext (E : Type) where
  c1 : E
  c2 : E

namespace SecretKey

/-- The key does not appear in its text. -/
def debugText (_ : SecretKey) : String := "SecretKey(\"_\")"

def random (G : PrimeGroup E) : Sampling SecretKey := do return ⟨← G.drawExponent⟩

/-- The witness of a prover who knows the private key. -/
def asWitness (key : SecretKey) : Witness := .exponent key.exponent

/-- The element in a ciphertext for this key. -/
def decrypt (key : SecretKey) (G : PrimeGroup E) (c : Ciphertext E) : E :=
  G.mul c.c2 (G.inv (G.pow c.c1 key.exponent))

end SecretKey

namespace PublicKey

/-- The public key of a private key. -/
def ofSecret (G : PrimeGroup E) (secret : SecretKey) : PublicKey E :=
  ⟨G.powGenerator secret.exponent⟩

/-- An element as a public key, if it is a member of the group other than the identity. -/
def ofElement? [DecidableEq E] (G : PrimeGroup E) (element : E) : Option (PublicKey E) :=
  if G.isMember element && element ≠ G.identity then some ⟨element⟩ else none

end PublicKey

namespace KeyPair

def ofSecret (G : PrimeGroup E) (secret : SecretKey) : KeyPair E :=
  ⟨secret, .ofSecret G secret⟩

def random (G : PrimeGroup E) : Sampling (KeyPair E) := do
  return ofSecret G (← SecretKey.random G)

end KeyPair

namespace Ciphertext

/-- The encryption of an element with given randomness. -/
def encrypt (G : PrimeGroup E) (value : E) (receiver : PublicKey E) (randomness : Nat) :
    Ciphertext E where
  c1 := G.powGenerator randomness
  c2 := G.mul value (G.pow receiver.element randomness)

/-- The encryption of an element with fresh randomness, and that randomness. -/
def encryptFresh (G : PrimeGroup E) (value : E) (receiver : PublicKey E) :
    Sampling (Ciphertext E × Nat) := do
  let randomness ← G.drawExponent
  return (encrypt G value receiver randomness, randomness)

/-- The ciphertext commits to `value` under the key. -/
def committedStatement (c : Ciphertext E) (receiver : PublicKey E) (value : E) : Statement E :=
  .elGamalCommitted receiver.element c.c1 c.c2 value

/-- The ciphertext encrypts `value` for the key. -/
def encryptedStatement (c : Ciphertext E) (receiver : PublicKey E) (value : E)
    (secret : ElGamalSecret) : Statement E :=
  .elGamalEncrypted receiver.element c.c1 c.c2 value secret

end Ciphertext

end SigmaProofs.ElGamal
