import SigmaProofs.Arithmetic.Power

/-!
# Arithmetic as a parameter

Computations that divide are written once, for any arithmetic in any monad. `Arithmetic.plain` gives
the results of natural numbers and does nothing else; other ones may look at their arguments first
and stop where there is no result.

`Arithmetic.Exact` says that an arithmetic does nothing else where there are results. What is
computed with it is then what is computed with the plain one.
-/

namespace SigmaProofs

/-- The operations of a computation that divides and draws random numbers. -/
structure Arithmetic (m : Type → Type) where
  rem (a b : Nat) : m Nat
  quot (a b : Nat) : m Nat
  /-- `b ^ e` modulo `modulus`. -/
  power (b e modulus : Nat) : m Nat
  difference (a b : Nat) : m Nat
  /-- The length after `s`. -/
  next (s : Nat) : m Nat
  /-- Before a number is drawn from a range with that many numbers. -/
  range (count : Nat) : m Unit

namespace Arithmetic

variable {m : Type → Type} [Monad m]

def plain : Arithmetic m where
  rem a b := pure (a % b)
  quot a b := pure (a / b)
  power b e modulus := pure (powMod b e modulus)
  difference a b := pure (a - b)
  next s := pure (s + 1)
  range _ := pure ()

/-- There is nothing but the result at a modulus that is not zero, a difference that is not
negative, a length that can be incremented in 32 bits, and a range that is not empty. -/
structure Exact (A : Arithmetic m) : Prop where
  rem {a b : Nat} (h : 0 < b) : A.rem a b = pure (a % b)
  quot {a b : Nat} (h : 0 < b) : A.quot a b = pure (a / b)
  power {b e modulus : Nat} (h : 0 < modulus) : A.power b e modulus = pure (powMod b e modulus)
  difference {a b : Nat} (h : b ≤ a) : A.difference a b = pure (a - b)
  next {s : Nat} (h : s + 1 < 2 ^ (32 : Nat)) : A.next s = pure (s + 1)
  range {count : Nat} (h : 0 < count) : A.range count = pure ()

theorem plain_exact : (plain : Arithmetic m).Exact where
  rem _ := rfl
  quot _ := rfl
  power _ := rfl
  difference _ := rfl
  next _ := rfl
  range _ := rfl

end Arithmetic

end SigmaProofs
