/-!
# Secret numbers

A secret number can be wiped, and its text does not show it.
-/

namespace SigmaProofs

/-- A number that is not to be shown. -/
structure SecretNumber where
  value : Nat
deriving DecidableEq

namespace SecretNumber

/-- The number is replaced by zero. -/
def wipe (_ : SecretNumber) : SecretNumber := ⟨0⟩

def isZero (s : SecretNumber) : Bool := s.value == 0

/-- The number does not appear in its text. -/
def debugText (_ : SecretNumber) : String := "SecretExponent(_)"

end SecretNumber

end SigmaProofs
