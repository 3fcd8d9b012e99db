import SigmaProofs.Bytes

/-!
# Randomised computations

A computation that needs random values is a tree: it asks its requests one after another, and each
answer selects the rest of the computation. What is asked, and in which order, is part of the
computation; where the answers come from is not.

* `Sampling.Always P c`: `P` holds of the result for all answers that fit their requests.
* `Sampling.replay c answers`: the result for a given list of answers.
* `Sampling/ByteStream.lean` answers the requests from a stream of bytes.
-/

namespace SigmaProofs

/-- A random value that is asked for. -/
inductive Request where
  /-- That many bytes. -/
  | bytes (count : Nat)
  /-- A number less than the bound. -/
  | below (bound : Nat)
  /-- A number from 1 up to the modulus that is coprime with it. -/
  | unit (modulus : Nat)
deriving DecidableEq, Repr

namespace Request

/-- The type of the answers to a request. -/
abbrev Answer : Request → Type
  | bytes _ => Bytes
  | below _ => Nat
  | unit _ => Nat

/-- Whether an answer fits its request. -/
def Fits : (r : Request) → r.Answer → Prop
  | bytes count, answer => List.length answer = count
  | below bound, answer => answer < bound
  | unit modulus, answer => 0 < answer ∧ answer < modulus ∧ Nat.Coprime answer modulus

end Request

/-- A computation with result in `α` that may ask for random values. -/
inductive Sampling (α : Type) where
  | done (result : α)
  | ask (request : Request) (next : request.Answer → Sampling α)

namespace Sampling

/-- Runs `c` and goes on with its result. -/
def bind {α β : Type} : Sampling α → (α → Sampling β) → Sampling β
  | done a, f => f a
  | ask r next, f => ask r fun answer => (next answer).bind f

instance : Monad Sampling where
  pure := done
  bind := bind

/-! ## The requests as computations -/

/-- That many random bytes. -/
def drawBytes (count : Nat) : Sampling Bytes := ask (.bytes count) done

/-- A random number less than `bound`. -/
def drawBelow (bound : Nat) : Sampling Nat := ask (.below bound) done

/-- A random unit modulo `modulus`. -/
def drawUnit (modulus : Nat) : Sampling Nat := ask (.unit modulus) done

/-! ## What holds of every run -/

/-- `P` holds of the result for all answers that fit. -/
def Always {α : Type} (P : α → Prop) : Sampling α → Prop
  | done a => P a
  | ask r next => ∀ answer, r.Fits answer → (next answer).Always P

/-! ## Runs on given answers -/

/-- The answer to a request, with the request. -/
abbrev Drawn : Type := (r : Request) × r.Answer

/-- The result for the given answers, in order; `none` if they are too few, too many, or belong to
other requests. -/
def replay {α : Type} : Sampling α → List Drawn → Option α
  | done a, [] => some a
  | done _, _ :: _ => none
  | ask _ _, [] => none
  | ask r next, ⟨r', answer⟩ :: rest =>
    if h : r' = r then (next (h ▸ answer)).replay rest else none

/-! ## Laws -/

theorem bind_pure {α : Type} (c : Sampling α) : c.bind done = c := by
  induction c with
  | done => rfl
  | ask r next ih => simp [bind, ih]

theorem bind_assoc {α β γ : Type} (c : Sampling α) (f : α → Sampling β) (g : β → Sampling γ) :
    (c.bind f).bind g = c.bind fun a => (f a).bind g := by
  induction c with
  | done => rfl
  | ask r next ih => simp [bind, ih]

instance : LawfulMonad Sampling :=
  LawfulMonad.mk' Sampling bind_pure (fun _ _ => rfl) bind_assoc

theorem Always.mono {α : Type} {P Q : α → Prop} {c : Sampling α} (hc : c.Always P)
    (h : ∀ a, P a → Q a) : c.Always Q := by
  induction c with
  | done a => exact h a hc
  | ask r next ih => exact fun answer ha => ih answer (hc answer ha)

theorem always_of_forall {α : Type} {P : α → Prop} {c : Sampling α} (h : ∀ a, P a) :
    c.Always P := by
  induction c with
  | done a => exact h a
  | ask r next ih => exact fun answer _ => ih answer

end Sampling

end SigmaProofs
