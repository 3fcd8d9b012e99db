import SigmaProofs.Proofs.DamgardJurik.Exact

/-!
# Damgård–Jurik computations that can stop

Here the computations with a key are done with arithmetic that stops where it has no result: at a
division by zero, at a difference that would be negative, where the increment of a length does not
fit into 32 bits, and where a random number is asked for from an empty range.

* `Arithmetic.checked`: arithmetic that may stop. It is exact (`checked_exact`).
* `RawKey.encrypt_eq_error_iff`: for which numbers it does stop.
* `Key.neverStops`, `Leaf.neverStops`, `Conversion.applyChecked_eq`: for a key it does not, on
  whatever input, and gives what plain arithmetic gives.
-/

namespace SigmaProofs

open DamgardJurik

/-! ## Arithmetic that may stop -/

/-- Where a computation stops for good. -/
inductive Crash where
  /-- A quotient, a remainder or a power is taken modulo zero. -/
  | divisionByZero
  /-- A number of 32 bits is incremented above its range. -/
  | overflow
  /-- The difference would be negative. -/
  | negative
  /-- A random number is asked for from an empty range. -/
  | emptyRange
deriving DecidableEq, Repr

/-- A computation that may stop. -/
abbrev Checked : Type → Type := Except Crash

/-- A computation with random values that may stop. -/
abbrev CheckedSampling : Type → Type := ExceptT Crash Sampling

/-- Arithmetic that stops where it has no result. -/
def Arithmetic.checked {m : Type → Type} [Monad m] [MonadExceptOf Crash m] : Arithmetic m where
  rem a b := if b = 0 then throw .divisionByZero else return a % b
  quot a b := if b = 0 then throw .divisionByZero else return a / b
  power b e modulus := if modulus = 0 then throw .divisionByZero else return powMod b e modulus
  difference a b := if a < b then throw .negative else return a - b
  next s := if 2 ^ (32 : Nat) ≤ s + 1 then throw .overflow else return s + 1
  range count := if count = 0 then throw .emptyRange else return

theorem Arithmetic.checked_exact {m : Type → Type} [Monad m] [MonadExceptOf Crash m] :
    (checked : Arithmetic m).Exact where
  rem h := if_neg h.ne'
  quot h := if_neg h.ne'
  power h := if_neg h.ne'
  difference h := if_neg (Nat.not_lt_of_le h)
  next h := if_neg (Nat.not_le_of_lt h)
  range h := if_neg h.ne'

/-- Without the conditions on a key, encryption stops: at a modulus of zero, and at a length that
cannot be incremented. -/
theorem DamgardJurik.RawKey.encrypt_eq_error_iff (k : RawKey) (x r : Nat) :
    (∃ crash, (k.encrypt .checked x r : Checked Nat) = .error crash) ↔
      k.n = 0 ∨ 2 ^ (32 : Nat) ≤ k.s + 1 := by
  by_cases hs : 2 ^ (32 : Nat) ≤ k.s + 1
  · have hnext : (Arithmetic.checked.next k.s : Checked Nat) = .error .overflow := if_pos hs
    have hstop : (k.encrypt .checked x r : Checked Nat) = .error .overflow := by
      rw [encrypt, ciphertextModulus, hnext]
      rfl
    exact iff_of_true ⟨_, hstop⟩ (.inr hs)
  · have hmodulus : (k.ciphertextModulus .checked : Checked Nat) = pure (k.n ^ (k.s + 1)) := by
      rw [ciphertextModulus, Arithmetic.checked_exact.next (Nat.lt_of_not_le hs), pure_bind]
    by_cases hn : k.n = 0
    · have hstop : (k.encrypt .checked x r : Checked Nat) = .error .divisionByZero := by
        rw [encrypt, hmodulus, pure_bind, hn, Nat.zero_pow (Nat.succ_pos _)]
        rfl
      exact iff_of_true ⟨_, hstop⟩ (.inl hn)
    · have hpos : 0 < k.n ^ (k.s + 1) := Nat.pow_pos (Nat.pos_of_ne_zero hn)
      refine iff_of_false ?_ (not_or.mpr ⟨hn, hs⟩)
      simp [encrypt, hmodulus, Arithmetic.checked_exact.power hpos,
        Arithmetic.checked_exact.rem hpos]

/-! ## Nothing stops for a key -/

namespace Leaf

variable {E : Type}

/-- The first message with checked arithmetic, and what is kept for the response. -/
def commitChecked (t : Soundness) (input : Witnessed E) :
    Leaf E → CheckedSampling (Except ConfigError (Pending × Message))
  | encryptedZero => EncryptedZero.commitFor .checked t input
  | product => Product.commitFor .checked t input
  | l => ExceptT.lift (l.commit t input)

/-- Whether the messages prove the statement under the challenge, with checked arithmetic. -/
def verifyChecked [DecidableEq E] (t : Soundness) (challenge : Bytes) (statement : Statement E)
    (first second : Message) : Leaf E → Checked (Except ProtocolError Bool)
  | encryptedZero =>
    EncryptedZero.verifyFor .checked t (challengeNumber challenge) statement first second
  | product => Product.verifyFor .checked t (challengeNumber challenge) statement first second
  | l => return l.verify t challenge statement first second

/-- The messages of a run with the given challenge, with checked arithmetic. -/
def simulateChecked (t : Soundness) (statement : Statement E) (e : Nat) :
    Leaf E → CheckedSampling (Except ConfigError (Message × Message))
  | encryptedZero => EncryptedZero.simulateFor .checked t statement e
  | product => Product.simulateFor .checked t statement e
  | l => ExceptT.lift (l.simulateMessages t statement e)

theorem commitChecked_eq (t : Soundness) (input : Witnessed E) (l : Leaf E) :
    l.commitChecked t input = ExceptT.lift (l.commit t input) := by
  cases l with
  | encryptedZero => exact EncryptedZero.commitFor_eq Arithmetic.checked_exact t input
  | product => exact Product.commitFor_eq Arithmetic.checked_exact t input
  | dlog | dhTuple | dhExtended | opening => rfl

theorem verifyChecked_eq [DecidableEq E] (t : Soundness) (challenge : Bytes)
    (statement : Statement E) (first second : Message) (l : Leaf E) :
    l.verifyChecked t challenge statement first second =
      pure (l.verify t challenge statement first second) := by
  cases l with
  | encryptedZero => exact EncryptedZero.verifyFor_eq Arithmetic.checked_exact ..
  | product => exact Product.verifyFor_eq Arithmetic.checked_exact ..
  | dlog | dhTuple | dhExtended | opening => rfl

theorem simulateChecked_eq (t : Soundness) (statement : Statement E) (e : Nat) (l : Leaf E) :
    l.simulateChecked t statement e = ExceptT.lift (l.simulateMessages t statement e) := by
  cases l with
  | encryptedZero => exact EncryptedZero.simulateFor_eq Arithmetic.checked_exact t statement e
  | product => exact Product.simulateFor_eq Arithmetic.checked_exact t statement e
  | dlog | dhTuple | dhExtended | opening => rfl

section

open Sampling

/-- What a prover keeps modulo `n` comes from a key. -/
theorem always_divides (t : Soundness) (input : Witnessed E) (l : Leaf E) :
    (l.commit t input).Always fun result =>
      ∀ pending first, result = .ok (pending, first) → pending.Divides := by
  cases l with
  | dlog G | dhTuple G | dhExtended G =>
    rw [commit]
    split
    · simp
    · refine always_bind.mpr (always_of_forall fun r => always_pure.mpr ?_)
      rintro _ _ ⟨⟩
      trivial
  | opening G =>
    rw [commit]
    split
    · simp
    · refine always_bind.mpr (always_of_forall fun alpha => always_bind.mpr
        (always_of_forall fun beta => always_pure.mpr ?_))
      rintro _ _ ⟨⟩
      trivial
  | encryptedZero =>
    rw [commit_encryptedZero_def]
    split
    · simp
    · rename_i key r h
      refine always_bind.mpr (always_of_forall fun rho => always_pure.mpr ?_)
      rintro _ _ ⟨⟩
      exact key.n_pos
  | product =>
    rw [commit_product_def]
    split
    · simp
    · split
      · simp
      · refine always_bind.mpr (always_of_forall fun d => always_bind.mpr
          (always_of_forall fun rho => always_bind.mpr
            (always_of_forall fun rhoBar => always_pure.mpr ?_)))
        rintro _ _ ⟨⟩
        trivial

end

end Leaf

/-- The statement that is proved instead, with checked arithmetic. -/
def Conversion.applyChecked {E : Type} :
    Conversion E → Statement E → Checked (Except ConfigError (Statement E))
  | .djValue, .djValue key ciphertext plaintext => do
    return .ok (.djZero key (← key.raw.unmask .checked ciphertext plaintext))
  | c, s => return c.apply s

theorem Conversion.applyChecked_eq {E : Type} (c : Conversion E) (s : Statement E) :
    c.applyChecked s = pure (c.apply s) := by
  cases c with
  | djValue =>
    cases s with
    | djValue key ciphertext plaintext =>
      rw [applyChecked, RawKey.unmask_eq Arithmetic.checked_exact]
      rfl
    | _ => rfl
  | _ => rfl

/-- With the numbers of the key, encryption gives what it gives without checks. -/
structure DamgardJurik.Key.NeverStops (key : Key) : Prop where
  encrypt (x r : Nat) : (key.raw.encrypt .checked x r : Checked Nat) = pure (key.encrypt x r)
  drawUnit : (key.raw.drawUnit .checked : CheckedSampling Nat) = ExceptT.lift key.drawUnit
  encryptFresh (x : Nat) : (key.raw.encryptFresh .checked x : CheckedSampling (Nat × Nat)) =
    ExceptT.lift (key.encryptFresh x)
  powNeg (c e : Nat) : (key.raw.powNeg .checked c e : Checked (Except ConfigError Nat)) =
    pure (key.powNeg c e)

/-- The parties of a basic protocol do what they do without checks, on any input and any messages. A
prover responds from what it has kept of its own first message. -/
structure Leaf.NeverStops {E : Type} (l : Leaf E) (t : Soundness) : Prop where
  commit (input : Witnessed E) : l.commitChecked t input = ExceptT.lift (l.commit t input)
  respond (input : Witnessed E) : (l.commit t input).Always fun result =>
    ∀ pending first, result = .ok (pending, first) →
      ∀ e, (pending.respondWith .checked e : Checked Message) = pure (pending.respond e)
  verify [DecidableEq E] (challenge : Bytes) (statement : Statement E) (first second : Message) :
    l.verifyChecked t challenge statement first second =
      pure (l.verify t challenge statement first second)
  simulate (statement : Statement E) (e : Nat) :
    l.simulateChecked t statement e = ExceptT.lift (l.simulateMessages t statement e)

theorem DamgardJurik.Key.neverStops (key : Key) : key.NeverStops where
  encrypt := RawKey.encrypt_eq Arithmetic.checked_exact key
  drawUnit := RawKey.drawUnit_eq Arithmetic.checked_exact key
  encryptFresh := RawKey.encryptFresh_eq Arithmetic.checked_exact key
  powNeg := RawKey.powNeg_eq Arithmetic.checked_exact key

theorem Leaf.neverStops {E : Type} (l : Leaf E) (t : Soundness) : l.NeverStops t where
  commit input := commitChecked_eq t input l
  respond input := (always_divides t input l).mono fun _ h pending first hresult e =>
    Pending.respondWith_eq Arithmetic.checked_exact (h pending first hresult) e
  verify challenge statement first second := verifyChecked_eq t challenge statement first second l
  simulate statement e := simulateChecked_eq t statement e l

end SigmaProofs
