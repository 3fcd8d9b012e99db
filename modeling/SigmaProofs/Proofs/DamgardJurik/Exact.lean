import SigmaProofs.Conversion
import SigmaProofs.Proofs.DamgardJurik
import SigmaProofs.Proofs.Steps

/-!
# Exact arithmetic with the numbers of a key

What is computed with a key is written for any arithmetic and any two numbers. With the numbers of a
key, no modulus is zero, the length can be incremented, and no range is empty. So with any exact
arithmetic (`Arithmetic.Exact`), on whatever input, the results are those of plain arithmetic, and
nothing else is done.

* `RawKey.encrypt_eq` and so on: computations with a key.
* `EncryptedZero.commitWith_eq`, `Product.commitWith_eq` and so on: messages and equations.
* `Leaf.commit_encryptedZero_def`, `Leaf.commit_product_def` and so on: what the parties do with
  plain arithmetic.
* `EncryptedZero.commitFor_eq`, `Product.commitFor_eq` and so on: they do the same with any exact
  one.
-/

namespace SigmaProofs

open DamgardJurik

variable {m : Type → Type} [Monad m] [LawfulMonad m] {A : Arithmetic m}

/-! ## Computations with a key -/

namespace DamgardJurik

namespace RawKey

variable (hA : A.Exact) (key : Key)

include hA

theorem ciphertextModulus_eq : key.raw.ciphertextModulus A = pure key.ciphertextModulus := by
  have hs : key.s + 1 < 2 ^ (32 : Nat) := Nat.add_lt_of_lt_sub key.s_lt
  have hnext : A.next key.raw.s = pure (key.s + 1) := hA.next hs
  rw [ciphertextModulus, hnext, pure_bind]
  rfl

omit hA [Monad m] [LawfulMonad m] in
theorem plaintextModulus_eq : key.raw.plaintextModulus = key.plaintextModulus := rfl

theorem encrypt_eq (x r : Nat) : key.raw.encrypt A x r = pure (key.encrypt x r) := by
  have hpos := key.ciphertextModulus_pos
  simp only [encrypt, ciphertextModulus_eq hA, plaintextModulus_eq, pure_bind, hA.power hpos,
    hA.rem hpos]
  rfl

theorem powNeg_eq (value e : Nat) : key.raw.powNeg A value e = pure (key.powNeg value e) := by
  have hpos := key.ciphertextModulus_pos
  simp only [powNeg, ciphertextModulus_eq hA, pure_bind, hA.inverse?_eq, hA.power hpos,
    Key.powNeg_def]
  cases inverseMod? value key.ciphertextModulus <;> rfl

theorem unmask_eq (c x : Nat) : key.raw.unmask A c x = pure (key.unmask c x) := by
  have hpos := key.ciphertextModulus_pos
  have hpos' := key.plaintextModulus_pos
  simp only [unmask, ciphertextModulus_eq hA, plaintextModulus_eq, pure_bind, hA.rem hpos,
    hA.rem hpos', hA.power hpos, hA.difference (Nat.mod_lt x hpos').le]
  rfl

section Draws

variable [MonadLiftT Sampling m]

theorem drawUnit_eq : key.raw.drawUnit A = liftM key.drawUnit := by
  have hrange : A.range (key.raw.n - 1) = pure () := hA.range (Nat.sub_pos_of_lt key.one_lt_n)
  rw [drawUnit, hrange, pure_bind]
  rfl

theorem drawPlaintext_eq :
    key.raw.drawPlaintext A = liftM (Sampling.drawBelow key.plaintextModulus) := by
  rw [drawPlaintext, plaintextModulus_eq, hA.range key.plaintextModulus_pos, pure_bind]

theorem encryptFresh_eq [LawfulMonadLiftT Sampling m] (x : Nat) :
    key.raw.encryptFresh A x = liftM (key.encryptFresh x) := by
  simp only [encryptFresh, drawUnit_eq hA, encrypt_eq hA, pure_bind, Key.encryptFresh_def,
    liftM_bind, liftM_pure]

end Draws

end RawKey

end DamgardJurik

/-! ## Messages and equations -/

namespace EncryptedZero

variable (hA : A.Exact) (key : Key)

include hA

theorem commitWith_eq (rho : Nat) : commitWith A key.raw rho = pure (commit key rho) := by
  simp only [commitWith, RawKey.ciphertextModulus_eq hA, RawKey.plaintextModulus_eq, pure_bind,
    hA.power key.ciphertextModulus_pos, commit_def]

theorem respondWith_eq {n : Nat} (h : 0 < n) (rho e r : Nat) :
    respondWith A n rho e r = pure (respond n rho e r) := by
  simp only [respondWith, hA.power h, hA.rem h, pure_bind, respond_def]

theorem simulateWith_eq (c e z : Nat) :
    simulateWith A key.raw c e z = pure (simulate key c e z) := by
  have hpos := key.ciphertextModulus_pos
  simp only [simulateWith, RawKey.ciphertextModulus_eq hA, RawKey.plaintextModulus_eq,
    RawKey.powNeg_eq hA, pure_bind, hA.power hpos, hA.rem hpos, simulate_def]
  cases key.powNeg c e <;> rfl

theorem acceptsWith_eq (c e a z : Nat) :
    acceptsWith A key.raw c e a z = pure (accepts key c e a z) := by
  have hpos := key.ciphertextModulus_pos
  simp only [acceptsWith, RawKey.ciphertextModulus_eq hA, RawKey.plaintextModulus_eq, pure_bind,
    hA.power hpos, hA.rem hpos]
  rfl

end EncryptedZero

namespace Product

variable (hA : A.Exact) (key : Key)

include hA

theorem quotientRandomnessWith_eq {n : Nat} (h : 0 < n) (x1 r2 r3 : Nat) :
    quotientRandomnessWith A n x1 r2 r3 = pure (quotientRandomness n x1 r2 r3) := by
  simp only [quotientRandomnessWith, hA.inverse?_eq, pure_bind, hA.power h, hA.rem h,
    quotientRandomness_def]
  cases inverseMod? r2 n <;> rfl

theorem commitWith_eq (c2 d rho rhoBar : Nat) :
    commitWith A key.raw c2 d rho rhoBar = pure (commit key c2 d rho rhoBar) := by
  have hpos := key.ciphertextModulus_pos
  simp only [commitWith, RawKey.ciphertextModulus_eq hA, RawKey.plaintextModulus_eq,
    RawKey.encrypt_eq hA, pure_bind, hA.power hpos, hA.rem hpos, commit_def]

theorem respondWith_eq (c2 d rho rhoBar x1 r1 r e : Nat) :
    respondWith A key.raw c2 d rho rhoBar x1 r1 r e =
      pure (respond key c2 d rho rhoBar x1 r1 r e) := by
  have hpos : 0 < key.raw.n := key.n_pos
  have hpos' := key.plaintextModulus_pos
  simp only [respondWith, RawKey.plaintextModulus_eq, pure_bind, hA.quot hpos', hA.rem hpos',
    hA.power hpos, hA.rem hpos]
  rfl

theorem simulateWith_eq (c1 c2 c3 e z1 z2 z3 : Nat) :
    simulateWith A key.raw c1 c2 c3 e z1 z2 z3 = pure (simulate key c1 c2 c3 e z1 z2 z3) := by
  have hpos := key.ciphertextModulus_pos
  simp only [simulateWith, RawKey.ciphertextModulus_eq hA, RawKey.plaintextModulus_eq,
    RawKey.powNeg_eq hA, RawKey.encrypt_eq hA, pure_bind, hA.power hpos, hA.rem hpos,
    simulate_def]
  cases key.powNeg c1 e with
  | error cause => rfl
  | ok inverse1 => cases key.powNeg c3 e <;> rfl

theorem acceptsWith_eq (c1 c2 c3 e a1 a2 z1 z2 z3 : Nat) :
    acceptsWith A key.raw c1 c2 c3 e a1 a2 z1 z2 z3 =
      pure (accepts key c1 c2 c3 e a1 a2 z1 z2 z3) := by
  have hpos := key.ciphertextModulus_pos
  simp only [acceptsWith, RawKey.ciphertextModulus_eq hA, RawKey.plaintextModulus_eq,
    RawKey.encrypt_eq hA, pure_bind, hA.power hpos, hA.rem hpos]
  rfl

end Product

/-! ## The parties -/

/-- What a prover keeps to respond modulo `n` is for a modulus that is not zero. -/
def Pending.Divides : Pending → Prop
  | .encryptedZero n _ _ => 0 < n
  | _ => True

theorem Pending.respondWith_eq (hA : A.Exact) {pending : Pending} (h : pending.Divides) (e : Nat) :
    pending.respondWith A e = pure (pending.respond e) := by
  cases pending with
  | exponent => rfl
  | opening => rfl
  | encryptedZero n rho r => exact EncryptedZero.respondWith_eq hA h rho e r
  | product key c2 d rho rhoBar x1 r1 r =>
    exact Product.respondWith_eq hA key c2 d rho rhoBar x1 r1 r e

namespace Leaf

variable {E : Type} (t : Soundness)

theorem commit_encryptedZero_def (input : Witnessed E) :
    encryptedZero.commit t input =
      match EncryptedZero.proverInput t input with
      | .error cause => return .error cause
      | .ok (key, r) => do
        let rho ← key.drawUnit
        return .ok (.encryptedZero key.n rho r, EncryptedZero.commit key rho) := by
  rw [commit, EncryptedZero.commitFor]
  cases EncryptedZero.proverInput t input <;> rfl

theorem commit_product_def (input : Witnessed E) :
    product.commit t input =
      match Product.proverInput t input with
      | .error cause => return .error cause
      | .ok (key, c2, x1, r1, r2, r3) =>
        match Product.quotientRandomness key.n x1 r2 r3 with
        | .error cause => return .error cause
        | .ok r => do
          let d ← Sampling.drawBelow key.plaintextModulus
          let rho ← key.drawUnit
          let rhoBar ← key.drawUnit
          return .ok (.product key c2 d rho rhoBar x1 r1 r,
            Product.commit key c2 d rho rhoBar) := by
  rw [commit, Product.commitFor]
  cases Product.proverInput t input with
  | error cause => rfl
  | ok x =>
    obtain ⟨key, c2, x1, r1, r2, r3⟩ := x
    simp only [Product.quotientRandomnessWith_eq Arithmetic.plain_exact key.n_pos, pure_bind]
    cases Product.quotientRandomness key.n x1 r2 r3 <;> rfl

theorem verify_encryptedZero_def [DecidableEq E] (challenge : Bytes) (statement : Statement E)
    (first second : Message) :
    encryptedZero.verify t challenge statement first second = (do
      let (key, c, a, z) ← EncryptedZero.verifierInput t statement first second
      return EncryptedZero.accepts key c (challengeNumber challenge) a z) := by
  rw [verify, EncryptedZero.verifyFor]
  cases EncryptedZero.verifierInput t statement first second <;> rfl

theorem verify_product_def [DecidableEq E] (challenge : Bytes) (statement : Statement E)
    (first second : Message) :
    product.verify t challenge statement first second = (do
      let (key, (c1, c2, c3), (a1, a2), z1, z2, z3) ←
        Product.verifierInput t statement first second
      return Product.accepts key c1 c2 c3 (challengeNumber challenge) a1 a2 z1 z2 z3) := by
  rw [verify, Product.verifyFor]
  cases Product.verifierInput t statement first second <;> rfl

theorem simulateMessages_encryptedZero_def (statement : Statement E) (e : Nat) :
    encryptedZero.simulateMessages t statement e =
      match EncryptedZero.simulatorInput t statement with
      | .error cause => return .error cause
      | .ok (key, c) => do
        let z ← key.drawUnit
        return (EncryptedZero.simulate key c e z).map (·, .integer z) := by
  rw [simulateMessages, EncryptedZero.simulateFor]
  cases EncryptedZero.simulatorInput t statement with
  | error cause => rfl
  | ok x =>
    simp only [EncryptedZero.simulateWith_eq Arithmetic.plain_exact, pure_bind]
    rfl

theorem simulateMessages_product_def (statement : Statement E) (e : Nat) :
    product.simulateMessages t statement e =
      match Product.simulatorInput t statement with
      | .error cause => return .error cause
      | .ok (key, c1, c2, c3) => do
        let z1 ← Sampling.drawBelow key.plaintextModulus
        let z2 ← key.drawUnit
        let z3 ← key.drawUnit
        return (Product.simulate key c1 c2 c3 e z1 z2 z3).map (·, .productResponse z1 z2 z3) := by
  rw [simulateMessages, Product.simulateFor]
  cases Product.simulatorInput t statement with
  | error cause => rfl
  | ok x =>
    simp only [Product.simulateWith_eq Arithmetic.plain_exact, pure_bind]
    rfl

end Leaf

section Parties

variable {E : Type} [MonadLiftT Sampling m] [LawfulMonadLiftT Sampling m] (hA : A.Exact)
  (t : Soundness)

include hA

theorem EncryptedZero.commitFor_eq (input : Witnessed E) :
    commitFor A t input = liftM (Leaf.encryptedZero.commit t input) := by
  rw [Leaf.commit_encryptedZero_def, commitFor]
  cases proverInput t input with
  | error cause => exact (liftM_pure _).symm
  | ok x => simp only [RawKey.drawUnit_eq hA, commitWith_eq hA, pure_bind, liftM_bind, liftM_pure]

theorem EncryptedZero.simulateFor_eq (statement : Statement E) (e : Nat) :
    simulateFor A t statement e = liftM (Leaf.encryptedZero.simulateMessages t statement e) := by
  rw [Leaf.simulateMessages_encryptedZero_def, simulateFor]
  cases simulatorInput t statement with
  | error cause => exact (liftM_pure _).symm
  | ok x => simp only [RawKey.drawUnit_eq hA, simulateWith_eq hA, pure_bind, liftM_bind, liftM_pure]

theorem Product.commitFor_eq (input : Witnessed E) :
    commitFor A t input = liftM (Leaf.product.commit t input) := by
  rw [Leaf.commit_product_def, commitFor]
  cases proverInput t input with
  | error cause => exact (liftM_pure _).symm
  | ok x =>
    obtain ⟨key, c2, x1, r1, r2, r3⟩ := x
    simp only [quotientRandomnessWith_eq hA key.n_pos, pure_bind]
    cases quotientRandomness key.n x1 r2 r3 with
    | error cause => exact (liftM_pure _).symm
    | ok r =>
      simp only [RawKey.drawPlaintext_eq hA, RawKey.drawUnit_eq hA, commitWith_eq hA, pure_bind,
        liftM_bind, liftM_pure]

theorem Product.simulateFor_eq (statement : Statement E) (e : Nat) :
    simulateFor A t statement e = liftM (Leaf.product.simulateMessages t statement e) := by
  rw [Leaf.simulateMessages_product_def, simulateFor]
  cases simulatorInput t statement with
  | error cause => exact (liftM_pure _).symm
  | ok x =>
    simp only [RawKey.drawPlaintext_eq hA, RawKey.drawUnit_eq hA, simulateWith_eq hA, pure_bind,
      liftM_bind, liftM_pure]

end Parties

section Verifiers

variable {E : Type} [DecidableEq E] (hA : A.Exact) (t : Soundness) (challenge : Bytes)
  (statement : Statement E) (first second : Message)

include hA

theorem EncryptedZero.verifyFor_eq :
    verifyFor A t (challengeNumber challenge) statement first second =
      pure (Leaf.encryptedZero.verify t challenge statement first second) := by
  rw [Leaf.verify_encryptedZero_def, verifyFor]
  cases verifierInput t statement first second with
  | error err => rfl
  | ok x => simp only [acceptsWith_eq hA, pure_bind, ok_bind]; rfl

theorem Product.verifyFor_eq :
    verifyFor A t (challengeNumber challenge) statement first second =
      pure (Leaf.product.verify t challenge statement first second) := by
  rw [Leaf.verify_product_def, verifyFor]
  cases verifierInput t statement first second with
  | error err => rfl
  | ok x => simp only [acceptsWith_eq hA, pure_bind, ok_bind]; rfl

end Verifiers

end SigmaProofs
