import SigmaProofs.Arithmetic.Inverse
import SigmaProofs.Arithmetic.Power
import SigmaProofs.Arithmetic.ProbablePrime
import SigmaProofs.Sampling
import SigmaProofs.Soundness

/-!
# The Damgård–Jurik cryptosystem

A public key is a modulus `n` and a length `s`. Plaintexts are residues modulo `N = n ^ s` and
ciphertexts units modulo `N' = n ^ (s + 1)`; the encryption of `x` with randomness `r` is
`(1 + n) ^ x * r ^ N` modulo `N'`.

What is computed with a key is written once, for two numbers and any arithmetic (`RawKey`). With the
numbers of a key and plain arithmetic it is a function of the key (`Key.encrypt` and so on).
-/

namespace SigmaProofs.DamgardJurik

/-- A public key: an odd modulus greater than 3, and a length from 1 up to `2^32 - 2`. -/
structure Key where
  n : Nat
  s : Nat
  s_pos : 0 < s
  s_lt : s < 2 ^ (32 : Nat) - 1
  n_gt : 3 < n
  n_odd : n % 2 = 1
deriving Repr

namespace Key

/-- Keys are equal if their numbers are. -/
instance : DecidableEq Key := fun a b =>
  decidable_of_iff (a.n = b.n ∧ a.s = b.s) (by cases a; cases b; simp)

/-- The key with the given modulus and length, if they are admissible. -/
def ofModulus (n s : Nat) : Except ConfigError Key :=
  if hs : s = 0 then .error (.invalidInput .zeroLength)
  else if hs' : 2 ^ (32 : Nat) - 1 ≤ s then .error (.invalidInput .lengthTooLarge)
  else if hn : 3 < n ∧ n % 2 = 1 then
    .ok ⟨n, s, Nat.pos_of_ne_zero hs, Nat.lt_of_not_le hs', hn.1, hn.2⟩
  else .error (.invalidInput .modulusNotOdd)

/-- The key whose modulus is the product of two distinct odd primes. -/
def ofPrimes (p q s : Nat) : Except ConfigError Key :=
  if p ≠ q && p % 2 = 1 && q % 2 = 1 && isProbablePrime p && isProbablePrime q then
    ofModulus (p * q) s
  else .error (.invalidInput .primesNotDistinct)

/-- The modulus is long enough for challenges of `t` bits. -/
def requireLength (key : Key) (t : Soundness) : Except ConfigError Unit := t.requireModulus key.n

end Key

/-! ## Computations with two numbers -/

/-- Two numbers in the place of a modulus and a length. Computations are written for these, as the
conditions on a key are not a part of what is computed. -/
structure RawKey where
  n : Nat
  s : Nat
deriving DecidableEq, Repr

/-- The numbers of a key. -/
def Key.raw (key : Key) : RawKey := ⟨key.n, key.s⟩

namespace RawKey

variable {m : Type → Type} [Monad m] (A : Arithmetic m) (k : RawKey)

/-- `N = n ^ s`. -/
def plaintextModulus : Nat := k.n ^ k.s

/-- `N' = n ^ (s + 1)`. -/
def ciphertextModulus : m Nat := do return k.n ^ (← A.next k.s)

/-- The encryption of a plaintext with given randomness. -/
def encrypt (plaintext randomness : Nat) : m Nat := do
  let modulus ← k.ciphertextModulus A
  let masked ← A.power (k.n + 1) plaintext modulus
  let mask ← A.power randomness k.plaintextModulus modulus
  A.rem (masked * mask) modulus

/-- A random unit modulo `n`. -/
def drawUnit [MonadLiftT Sampling m] : m Nat := do
  A.range (k.n - 1)
  Sampling.drawUnit k.n

/-- A random plaintext. -/
def drawPlaintext [MonadLiftT Sampling m] : m Nat := do
  A.range k.plaintextModulus
  Sampling.drawBelow k.plaintextModulus

/-- The encryption of a plaintext with fresh randomness, and that randomness. -/
def encryptFresh [MonadLiftT Sampling m] (plaintext : Nat) : m (Nat × Nat) := do
  let randomness ← k.drawUnit A
  return (← k.encrypt A plaintext randomness, randomness)

/-- `value ^ (-e)` modulo `N'`, for a ciphertext that is invertible. -/
def powNeg (value e : Nat) : m (Except ConfigError Nat) := do
  let modulus ← k.ciphertextModulus A
  match ← A.inverse? value modulus with
  | some inverse => return .ok (← A.power inverse e modulus)
  | none => return .error (.invalidInput .singularCiphertext)

/-- A ciphertext with the plaintext divided out. -/
def unmask (ciphertext plaintext : Nat) : m Nat := do
  let modulus ← k.ciphertextModulus A
  let reduced ← A.rem plaintext k.plaintextModulus
  let negated ← A.rem (← A.difference k.plaintextModulus reduced) k.plaintextModulus
  A.rem (ciphertext * (← A.power (k.n + 1) negated modulus)) modulus

end RawKey

/-! ## Computations with a key -/

namespace Key

variable (key : Key)

def plaintextModulus : Nat := key.raw.plaintextModulus

def ciphertextModulus : Nat := Id.run (key.raw.ciphertextModulus .plain)

def encrypt (plaintext randomness : Nat) : Nat :=
  Id.run (key.raw.encrypt .plain plaintext randomness)

def drawUnit : Sampling Nat := key.raw.drawUnit .plain

def encryptFresh (plaintext : Nat) : Sampling (Nat × Nat) := key.raw.encryptFresh .plain plaintext

def powNeg (value e : Nat) : Except ConfigError Nat := Id.run (key.raw.powNeg .plain value e)

def unmask (ciphertext plaintext : Nat) : Nat :=
  Id.run (key.raw.unmask .plain ciphertext plaintext)

theorem plaintextModulus_def : key.plaintextModulus = key.n ^ key.s := rfl

theorem ciphertextModulus_def : key.ciphertextModulus = key.n ^ (key.s + 1) := rfl

theorem encrypt_def (x r : Nat) : key.encrypt x r =
    powMod (key.n + 1) x key.ciphertextModulus *
      powMod r key.plaintextModulus key.ciphertextModulus % key.ciphertextModulus :=
  rfl

theorem drawUnit_def : key.drawUnit = .drawUnit key.n := rfl

theorem encryptFresh_def (x : Nat) :
    key.encryptFresh x = (do let r ← key.drawUnit; return (key.encrypt x r, r)) :=
  rfl

theorem powNeg_def (value e : Nat) : key.powNeg value e =
    match inverseMod? value key.ciphertextModulus with
    | some inverse => .ok (powMod inverse e key.ciphertextModulus)
    | none => .error (.invalidInput .singularCiphertext) := by
  show Id.run (match inverseMod? value key.ciphertextModulus with
    | some inverse => _ | none => _) = _
  cases inverseMod? value key.ciphertextModulus <;> rfl

theorem unmask_def (c x : Nat) : key.unmask c x =
    c * powMod (key.n + 1) (negMod key.plaintextModulus x) key.ciphertextModulus %
      key.ciphertextModulus :=
  rfl

end Key

end SigmaProofs.DamgardJurik
