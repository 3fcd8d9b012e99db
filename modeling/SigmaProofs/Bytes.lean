import SigmaProofs.Arithmetic.Power

/-!
# Byte strings and the numbers they carry

* `digits b n` and `ofDigits b ds`: positional notation, least significant digit first;
  `ofDigits_digits` reads back what was written.
* `littleEndian k n` and `ofLittleEndian`: a number in exactly `k` bytes.
* `Bytes.ofNat` and `Bytes.toNat`: big-endian, as few bytes as possible (zero is one zero byte);
  `Bytes.padLeft` makes the width fixed.
* `Bytes.xor`: the exclusive or of two strings (`Bytes.xor_length`).
-/

namespace SigmaProofs

/-- A string of bytes. -/
abbrev Bytes := List UInt8

/-- How many binary digits `n` has; zero has none. -/
def bitLength (n : Nat) : Nat :=
  if n = 0 then 0 else n.log2 + 1

/-! ## Positional notation -/

/-- The digits of `n` in base `b`, least significant first and without a zero at the top. -/
def digits (b n : Nat) : List Nat :=
  if _h : n = 0 ∨ b < 2 then [] else n % b :: digits b (n / b)
termination_by n
decreasing_by exact Nat.div_lt_self (by omega) (by omega)

/-- The number with the given digits, least significant first. -/
def ofDigits (b : Nat) : List Nat → Nat
  | [] => 0
  | d :: ds => d + b * ofDigits b ds

theorem ofDigits_digits {b : Nat} (hb : 2 ≤ b) (n : Nat) : ofDigits b (digits b n) = n := by
  fun_induction digits b n with
  | case1 n h => simp [ofDigits]; omega
  | case2 n h ih => rw [ofDigits, ih, Nat.mod_add_div]

theorem digits_lt {b n d : Nat} (h : d ∈ digits b n) : d < b := by
  fun_induction digits b n with
  | case1 => simp at h
  | case2 n hn ih =>
    rcases List.mem_cons.1 h with rfl | h
    · exact Nat.mod_lt _ (by omega)
    · exact ih h

/-! ## Fixed width, least significant byte first -/

/-- The low `8 * k` bits of `n` as `k` bytes, least significant first. -/
def littleEndian : Nat → Nat → Bytes
  | 0, _ => []
  | k + 1, n => UInt8.ofNat n :: littleEndian k (n / 256)

/-- The number whose bytes are given, least significant first. -/
def ofLittleEndian : Bytes → Nat
  | [] => 0
  | b :: bs => b.toNat + 256 * ofLittleEndian bs

@[simp] theorem littleEndian_length (k n : Nat) : (littleEndian k n).length = k := by
  induction k generalizing n with
  | zero => rfl
  | succ k ih => simp [littleEndian, ih]

theorem ofLittleEndian_littleEndian {k n : Nat} (h : n < 256 ^ k) :
    ofLittleEndian (littleEndian k n) = n := by
  induction k generalizing n with
  | zero => simp at h; simp [littleEndian, ofLittleEndian, h]
  | succ k ih =>
    have hn : n / 256 < 256 ^ k := Nat.div_lt_of_lt_mul (by rwa [Nat.mul_comm, ← Nat.pow_succ])
    rw [littleEndian, ofLittleEndian, ih hn, UInt8.toNat_ofNat']
    exact Nat.mod_add_div n 256

/-! ## Big-endian numbers -/

namespace Bytes

/-- The number whose bytes are given, most significant first. -/
def toNat (bs : Bytes) : Nat :=
  ofLittleEndian bs.reverse

/-- The bytes of `n`, most significant first: as few as possible, but at least one. -/
def ofNat (n : Nat) : Bytes :=
  if n = 0 then [0] else ((digits 256 n).map UInt8.ofNat).reverse

/-- Zero bytes in front of `bs` up to the given length; a longer string stays as it is. -/
def padLeft (len : Nat) (bs : Bytes) : Bytes :=
  List.replicate (len - bs.length) 0 ++ bs

/-! ## Exclusive or -/

/-- `acc` with the bytes of `other` added bit by bit; the length is that of `acc`. -/
protected def xor : Bytes → Bytes → Bytes
  | [], _ => []
  | acc, [] => acc
  | a :: acc, b :: other => (a ^^^ b) :: Bytes.xor acc other

@[simp] theorem xor_length (acc other : Bytes) : (acc.xor other).length = acc.length := by
  fun_induction Bytes.xor acc other <;> simp_all

end Bytes

end SigmaProofs
