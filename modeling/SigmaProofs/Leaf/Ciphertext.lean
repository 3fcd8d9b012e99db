import SigmaProofs.DamgardJurik
import SigmaProofs.Message

/-!
# Proofs about Damgård–Jurik ciphertexts

* `EncryptedZero`: `c = r ^ N`. The commitment is `rho ^ N`, the response
  `z = rho * r ^ e` modulo `n`, and the equation `z ^ N = a * c ^ e` modulo `N'`.
* `Product`: the plaintext of `c3` is the product of those of `c1` and `c2`. The commitments are
  an encryption `a1` of a random `d`, and `a2 = c2 ^ d * rhoBar ^ N`. With `q` the quotient of
  `d + e * x1` by `N`, the response is the remainder `z1`, `z2 = rho * r1 ^ e` and
  `z3 = rhoBar * (r3 / r2 ^ x1) ^ e * c2 ^ q` modulo `n`.

`commitWith` and so on compute with two numbers and any arithmetic, `commit` and so on with a key
and plain arithmetic. The lemmas `commit_def` and so on say what that is.
-/

namespace SigmaProofs

open DamgardJurik

namespace EncryptedZero

section

variable {m : Type → Type} [Monad m] (A : Arithmetic m)

def commitWith (k : RawKey) (rho : Nat) : m Message := do
  return .integer (← A.power rho k.plaintextModulus (← k.ciphertextModulus A))

def respondWith (n rho e r : Nat) : m Message := do
  return .integer (← A.rem (rho * (← A.power r e n)) n)

/-- The commitment that fits the response `z`; the ciphertext has to be invertible. -/
def simulateWith (k : RawKey) (c e z : Nat) : m (Except ConfigError Message) := do
  let modulus ← k.ciphertextModulus A
  let power ← A.power z k.plaintextModulus modulus
  match ← k.powNeg A c e with
  | .error cause => return .error cause
  | .ok inverse => return .ok (.integer (← A.rem (power * inverse) modulus))

/-- Whether all values are units and the equation holds. -/
def acceptsWith (k : RawKey) (c e a z : Nat) : m Bool := do
  let modulus ← k.ciphertextModulus A
  let left ← A.power z k.plaintextModulus modulus
  let right ← A.rem (a * (← A.power c e modulus)) modulus
  return isUnit c k.n && isUnit a k.n && isUnit z k.n && left == right

end

def commit (key : Key) (rho : Nat) : Message := Id.run (commitWith .plain key.raw rho)

def respond (n rho e r : Nat) : Message := Id.run (respondWith .plain n rho e r)

def simulate (key : Key) (c e z : Nat) : Except ConfigError Message :=
  Id.run (simulateWith .plain key.raw c e z)

def accepts (key : Key) (c e a z : Nat) : Bool := Id.run (acceptsWith .plain key.raw c e a z)

theorem commit_def (key : Key) (rho : Nat) :
    commit key rho = .integer (powMod rho key.plaintextModulus key.ciphertextModulus) :=
  rfl

theorem respond_def (n rho e r : Nat) : respond n rho e r = .integer (rho * powMod r e n % n) := rfl

theorem simulate_def (key : Key) (c e z : Nat) :
    simulate key c e z = (key.powNeg c e).map fun inverse => .integer
      (powMod z key.plaintextModulus key.ciphertextModulus * inverse % key.ciphertextModulus) := by
  show Id.run (match key.powNeg c e with | .error cause => _ | .ok inverse => _) = _
  cases key.powNeg c e <;> rfl

theorem accepts_def (key : Key) (c e a z : Nat) : accepts key c e a z =
    (isUnit c key.n && isUnit a key.n && isUnit z key.n &&
      powMod z key.plaintextModulus key.ciphertextModulus ==
        a * powMod c e key.ciphertextModulus % key.ciphertextModulus) :=
  rfl

end EncryptedZero

namespace Product

section

variable {m : Type → Type} [Monad m] (A : Arithmetic m)

/-- The randomness `r3 / r2 ^ x1` of `c3 / c2 ^ x1`. -/
def quotientRandomnessWith (n x1 r2 r3 : Nat) : m (Except ConfigError Nat) := do
  match ← A.inverse? r2 n with
  | some inverse => return .ok (← A.rem (r3 * (← A.power inverse x1 n)) n)
  | none => return .error (.invalidInput .singularRandomness)

def commitWith (k : RawKey) (c2 d rho rhoBar : Nat) : m Message := do
  let modulus ← k.ciphertextModulus A
  let a1 ← k.encrypt A d rho
  let power ← A.power c2 d modulus
  let mask ← A.power rhoBar k.plaintextModulus modulus
  return .productCommitment a1 (← A.rem (power * mask) modulus)

/-- The response for the randomness `r` of `c3 / c2 ^ x1`. -/
def respondWith (k : RawKey) (c2 d rho rhoBar x1 r1 r e : Nat) : m Message := do
  let total := d + e * x1
  let quotient ← A.quot total k.plaintextModulus
  let z1 ← A.rem total k.plaintextModulus
  let z2 ← A.rem (rho * (← A.power r1 e k.n)) k.n
  let power ← A.power r e k.n
  let carried ← A.power (← A.rem c2 k.n) quotient k.n
  return .productResponse z1 z2 (← A.rem (rhoBar * power * carried) k.n)

/-- The commitments that fit the response; `c1` and `c3` have to be invertible. -/
def simulateWith (k : RawKey) (c1 c2 c3 e z1 z2 z3 : Nat) : m (Except ConfigError Message) := do
  let modulus ← k.ciphertextModulus A
  match ← k.powNeg A c1 e with
  | .error cause => return .error cause
  | .ok inverse1 =>
    let a1 ← A.rem ((← k.encrypt A z1 z2) * inverse1) modulus
    let power ← A.power c2 z1 modulus
    let mask ← A.power z3 k.plaintextModulus modulus
    match ← k.powNeg A c3 e with
    | .error cause => return .error cause
    | .ok inverse3 =>
      return .ok (.productCommitment a1 (← A.rem (power * mask * inverse3) modulus))

/-- Whether all values are units and both equations hold. -/
def acceptsWith (k : RawKey) (c1 c2 c3 e a1 a2 z1 z2 z3 : Nat) : m Bool := do
  let modulus ← k.ciphertextModulus A
  let left1 ← k.encrypt A z1 z2
  let right1 ← A.rem (a1 * (← A.power c1 e modulus)) modulus
  let power ← A.power c2 z1 modulus
  let mask ← A.power z3 k.plaintextModulus modulus
  let left2 ← A.rem (power * mask) modulus
  let right2 ← A.rem (a2 * (← A.power c3 e modulus)) modulus
  return [c1, c2, c3, a1, a2, z2, z3].all (isUnit · k.n) && left1 == right1 && left2 == right2

end

def quotientRandomness (n x1 r2 r3 : Nat) : Except ConfigError Nat :=
  Id.run (quotientRandomnessWith .plain n x1 r2 r3)

def commit (key : Key) (c2 d rho rhoBar : Nat) : Message :=
  Id.run (commitWith .plain key.raw c2 d rho rhoBar)

def respond (key : Key) (c2 d rho rhoBar x1 r1 r e : Nat) : Message :=
  Id.run (respondWith .plain key.raw c2 d rho rhoBar x1 r1 r e)

def simulate (key : Key) (c1 c2 c3 e z1 z2 z3 : Nat) : Except ConfigError Message :=
  Id.run (simulateWith .plain key.raw c1 c2 c3 e z1 z2 z3)

def accepts (key : Key) (c1 c2 c3 e a1 a2 z1 z2 z3 : Nat) : Bool :=
  Id.run (acceptsWith .plain key.raw c1 c2 c3 e a1 a2 z1 z2 z3)

theorem quotientRandomness_def (n x1 r2 r3 : Nat) : quotientRandomness n x1 r2 r3 =
    match inverseMod? r2 n with
    | some inverse => .ok (r3 * powMod inverse x1 n % n)
    | none => .error (.invalidInput .singularRandomness) := by
  show Id.run (match inverseMod? r2 n with | some inverse => _ | none => _) = _
  cases inverseMod? r2 n <;> rfl

theorem commit_def (key : Key) (c2 d rho rhoBar : Nat) : commit key c2 d rho rhoBar =
    .productCommitment (key.encrypt d rho) (powMod c2 d key.ciphertextModulus *
      powMod rhoBar key.plaintextModulus key.ciphertextModulus % key.ciphertextModulus) :=
  rfl

theorem respond_def (key : Key) (c2 d rho rhoBar x1 r1 r e : Nat) :
    respond key c2 d rho rhoBar x1 r1 r e =
      .productResponse ((d + e * x1) % key.plaintextModulus) (rho * powMod r1 e key.n % key.n)
        (rhoBar * powMod r e key.n *
          powMod (c2 % key.n) ((d + e * x1) / key.plaintextModulus) key.n % key.n) :=
  rfl

theorem simulate_def (key : Key) (c1 c2 c3 e z1 z2 z3 : Nat) :
    simulate key c1 c2 c3 e z1 z2 z3 = (do
      let inverse1 ← key.powNeg c1 e
      let inverse3 ← key.powNeg c3 e
      return .productCommitment (key.encrypt z1 z2 * inverse1 % key.ciphertextModulus)
        (powMod c2 z1 key.ciphertextModulus *
          powMod z3 key.plaintextModulus key.ciphertextModulus * inverse3 %
          key.ciphertextModulus)) := by
  show Id.run (match key.powNeg c1 e with | .error cause => _ | .ok inverse1 => _) = _
  cases key.powNeg c1 e with
  | error cause => rfl
  | ok inverse1 =>
    show Id.run (match key.powNeg c3 e with | .error cause => _ | .ok inverse3 => _) = _
    cases key.powNeg c3 e <;> rfl

theorem accepts_def (key : Key) (c1 c2 c3 e a1 a2 z1 z2 z3 : Nat) :
    accepts key c1 c2 c3 e a1 a2 z1 z2 z3 =
      ([c1, c2, c3, a1, a2, z2, z3].all (isUnit · key.n) &&
        key.encrypt z1 z2 == a1 * powMod c1 e key.ciphertextModulus % key.ciphertextModulus &&
        powMod c2 z1 key.ciphertextModulus *
            powMod z3 key.plaintextModulus key.ciphertextModulus % key.ciphertextModulus ==
          a2 * powMod c3 e key.ciphertextModulus % key.ciphertextModulus) :=
  rfl

end Product

end SigmaProofs
