import SigmaProofs.Bytes
import SigmaProofs.Error

/-!
# The soundness parameter

A challenge has `t` bits, and a cheating prover passes with probability at most `2^-t`. The
parameter is a positive multiple of eight, so a challenge is `t / 8` whole bytes. It must be small
against the group order (`requireOrder`: `2^t < q`) or the modulus of a Damgård–Jurik key
(`requireModulus`: three times `t` below the bit length).
-/

namespace SigmaProofs

/-- The number of bits of a challenge: a positive multiple of eight. -/
structure Soundness where
  bits : Nat
  bits_pos : 0 < bits
  bits_aligned : bits % 8 = 0
deriving DecidableEq, Repr

namespace Soundness

/-- The parameter of that many bits, if it is a positive multiple of eight. -/
def ofBits (bits : Nat) : Except ConfigError Soundness :=
  if h : 0 < bits ∧ bits % 8 = 0 then .ok ⟨bits, h.1, h.2⟩ else .error (.unalignedSoundness bits)

/-- 80 bits, where nothing else is chosen. -/
def standard : Soundness := ⟨80, by decide, by decide⟩

instance : Inhabited Soundness := ⟨standard⟩

/-- The length of a challenge in bytes. -/
def byteLength (t : Soundness) : Nat := t.bits / 8

def description (t : Soundness) : String := s!"{t.bits} bits"

/-- Whether `2^t < q`; the power is only built if the bit length of `q` leaves it open. -/
def isBelow (t : Soundness) (order : Nat) : Bool :=
  t.bits < bitLength order && 2 ^ t.bits < order

/-- `2^t < q`, the bound of the protocols in a group of order `q`. -/
def requireOrder (t : Soundness) (order : Nat) : Except ConfigError Unit :=
  if t.isBelow order then .ok () else .error (.soundnessTooLarge t.bits (bitLength order))

/-- `3t < |n|`, the bound of the protocols for Damgård–Jurik ciphertexts modulo powers of `n`. -/
def requireModulus (t : Soundness) (modulus : Nat) : Except ConfigError Unit :=
  if 3 * t.bits < bitLength modulus then .ok ()
  else .error (.soundnessTooLargeForModulus t.bits (bitLength modulus))

/-- A challenge has exactly `t / 8` bytes. -/
def requireChallenge (t : Soundness) (challenge : Bytes) : Except Deviation Unit :=
  if challenge.length = t.byteLength then .ok ()
  else .error (.challengeLength t.byteLength challenge.length)

theorem isBelow_iff (t : Soundness) (order : Nat) :
    t.isBelow order = true ↔ 2 ^ t.bits < order := by
  simp only [isBelow, Bool.and_eq_true, decide_eq_true_eq, and_iff_right_iff_imp]
  intro h
  have hne : order ≠ 0 := Nat.ne_of_gt (Nat.lt_of_le_of_lt (Nat.zero_le _) h)
  have : t.bits ≤ order.log2 := (Nat.le_log2 hne).2 (Nat.le_of_lt h)
  simp [bitLength, hne]; omega

end Soundness

end SigmaProofs
