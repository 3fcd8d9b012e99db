import Mathlib.RingTheory.RootsOfUnity.PrimitiveRoots
import Mathlib.FieldTheory.Finite.Basic
import Mathlib.Tactic.NormNum.Prime
import SigmaProofs.Group.Schnorr
import SigmaProofs.Proofs.Bytes
import SigmaProofs.Proofs.Group.Lawful

/-!
# Schnorr groups are groups of prime order

Elements are computed with modulo `p`, that is in the field `ZMod p` (`cast_pow`, `cast_mul`,
`cast_inv`), and the members are the `q`-th roots of unity (`isMember_iff`). As `q` is a prime and
the generator is not 1, the generator is a primitive root, and all members are its powers.

* `SchnorrGroup.lawful`: parameters that pass the check, with numbers `p` and `q` that are indeed
  primes, describe a group of prime order.
-/

namespace SigmaProofs

/-- A number fits into as many bytes as its bits fill. -/
theorem lt_pow_bytes (n : Nat) : n < 256 ^ ((bitLength n + 7) / 8) := by
  have hbits : bitLength n ≤ 8 * ((bitLength n + 7) / 8) := by omega
  calc n < 2 ^ bitLength n := lt_two_pow_bitLength n
    _ ≤ 2 ^ (8 * ((bitLength n + 7) / 8)) := Nat.pow_le_pow_right (by decide) hbits
    _ = 256 ^ ((bitLength n + 7) / 8) := by rw [Nat.pow_mul]

namespace SchnorrGroup

variable {S : SchnorrGroup}

/-! ## The operations in the field modulo `p` -/

theorem cast_pow (a n : Nat) : ((S.pow a n : Nat) : ZMod S.p) = (a : ZMod S.p) ^ n :=
  cast_powMod a n S.p

theorem cast_mul (a b : Nat) : ((S.mul a b : Nat) : ZMod S.p) = (a : ZMod S.p) * b := by
  rw [mul, ZMod.natCast_mod, Nat.cast_mul]

theorem cast_inv (a : Nat) : ((S.inv a : Nat) : ZMod S.p) = (a : ZMod S.p) ^ (S.q - 1) :=
  cast_powMod a (S.q - 1) S.p

/-- What the check of the parameters says, apart from the tests for primes. -/
theorem of_hasPrimeOrder (h : S.hasPrimeOrder = true) :
    1 < S.g ∧ S.g < S.p ∧ (S.g : ZMod S.p) ^ S.q = 1 := by
  simp only [hasPrimeOrder, Bool.and_eq_true, decide_eq_true_eq, bne_iff_ne, beq_iff_eq] at h
  obtain ⟨⟨⟨⟨⟨⟨⟨-, -⟩, -⟩, hg⟩, hgp⟩, hpow⟩, -⟩, -⟩ := h
  refine ⟨hg, hgp, ?_⟩
  rw [← cast_powMod, hpow, Nat.cast_one]

theorem ofParameters_eq_ok {p q g : Nat} :
    ofParameters p q g = .ok S ↔ S = ⟨p, q, g⟩ ∧ S.hasPrimeOrder = true := by
  unfold ofParameters
  split
  · rename_i h
    constructor
    · rintro ⟨⟩
      exact ⟨rfl, h⟩
    · rintro ⟨rfl, -⟩
      rfl
  · rename_i h
    refine iff_of_false (by simp) ?_
    rintro ⟨rfl, h'⟩
    exact h h'

/-! ## Members -/

section Prime

variable [hp : Fact S.p.Prime]

theorem pow_lt (a n : Nat) : S.pow a n < S.p := powMod_lt hp.out.pos

theorem mul_lt (a b : Nat) : S.mul a b < S.p := Nat.mod_lt _ hp.out.pos

/-- The members are the `q`-th roots of unity. -/
theorem isMember_iff (hq : 0 < S.q) {a : Nat} :
    S.isMember a = true ↔ a < S.p ∧ (a : ZMod S.p) ^ S.q = 1 := by
  have hone : powMod a S.q S.p = 1 ↔ (a : ZMod S.p) ^ S.q = 1 := by
    rw [← cast_powMod]
    constructor
    · intro h
      rw [h, Nat.cast_one]
    · intro h
      exact eq_of_cast (powMod_lt hp.out.pos) hp.out.one_lt (by rw [h, Nat.cast_one])
  simp only [isMember, Bool.and_eq_true, decide_eq_true_eq, bne_iff_ne, beq_iff_eq, hone]
  constructor
  · rintro ⟨⟨-, hlt⟩, h⟩
    exact ⟨hlt, h⟩
  · rintro ⟨hlt, h⟩
    refine ⟨⟨?_, hlt⟩, h⟩
    rintro rfl
    rw [Nat.cast_zero, zero_pow hq.ne'] at h
    exact zero_ne_one h

theorem isMember_pow (hq : 0 < S.q) {a : Nat} (n : Nat) (ha : S.isMember a = true) :
    S.isMember (S.pow a n) = true := by
  obtain ⟨-, ha⟩ := (isMember_iff hq).mp ha
  refine (isMember_iff hq).mpr ⟨pow_lt a n, ?_⟩
  rw [cast_pow, ← pow_mul, Nat.mul_comm, pow_mul, ha, one_pow]

theorem isMember_mul (hq : 0 < S.q) {a b : Nat} (ha : S.isMember a = true)
    (hb : S.isMember b = true) : S.isMember (S.mul a b) = true := by
  obtain ⟨-, ha⟩ := (isMember_iff hq).mp ha
  obtain ⟨-, hb⟩ := (isMember_iff hq).mp hb
  refine (isMember_iff hq).mpr ⟨mul_lt a b, ?_⟩
  rw [cast_mul, mul_pow, ha, hb, mul_one]

theorem mul_assoc' (a b c : Nat) : S.mul (S.mul a b) c = S.mul a (S.mul b c) :=
  eq_of_cast (mul_lt _ _) (mul_lt _ _) (by simp only [cast_mul, mul_assoc])

theorem mul_comm' (a b : Nat) : S.mul a b = S.mul b a :=
  eq_of_cast (mul_lt _ _) (mul_lt _ _) (by rw [cast_mul, cast_mul, mul_comm])

theorem one_mul' (hq : 0 < S.q) {a : Nat} (ha : S.isMember a = true) : S.mul 1 a = a :=
  eq_of_cast (mul_lt _ _) ((isMember_iff hq).mp ha).1 (by rw [cast_mul, Nat.cast_one, one_mul])

theorem pow_succ' (a n : Nat) : S.pow a (n + 1) = S.mul (S.pow a n) a :=
  eq_of_cast (pow_lt _ _) (mul_lt _ _) (by rw [cast_pow, cast_mul, cast_pow, pow_succ])

/-- The power `q - 1` of a member is its inverse. -/
theorem inv_mul (hq : 0 < S.q) {a : Nat} (ha : S.isMember a = true) : S.mul (S.inv a) a = 1 := by
  obtain ⟨-, ha⟩ := (isMember_iff hq).mp ha
  refine eq_of_cast (mul_lt _ _) hp.out.one_lt ?_
  rw [cast_mul, cast_inv, ← pow_succ, Nat.sub_add_cancel hq, ha, Nat.cast_one]

/-- The inverse of a member cancels it from a product with any number below `p`. -/
theorem mul_mul_inv (hq : 0 < S.q) {a b : Nat} (ha : S.isMember a = true) (hb : b < S.p) :
    S.mul (S.mul b a) (S.inv a) = b := by
  obtain ⟨-, ha⟩ := (isMember_iff hq).mp ha
  refine eq_of_cast (mul_lt _ _) hb ?_
  rw [cast_mul, cast_mul, cast_inv, mul_assoc, mul_pow_sub_one hq.ne', ha, mul_one]

/-- Every member is a power of the generator. -/
theorem exists_pow_eq (hq : S.q.Prime) (h : S.hasPrimeOrder = true) {a : Nat}
    (ha : S.isMember a = true) : ∃ n, a = S.pow S.g n := by
  obtain ⟨hg, hgp, hgq⟩ := of_hasPrimeOrder h
  obtain ⟨hlt, ha⟩ := (isMember_iff hq.pos).mp ha
  have hne : (S.g : ZMod S.p) ≠ 1 := by
    intro h1
    have := eq_of_cast hgp hp.out.one_lt (by rw [h1, Nat.cast_one])
    omega
  have := Fact.mk hq
  have : NeZero S.q := ⟨hq.ne_zero⟩
  have horder : orderOf (S.g : ZMod S.p) = S.q := orderOf_eq_prime hgq hne
  have hroot : IsPrimitiveRoot (S.g : ZMod S.p) S.q := horder ▸ IsPrimitiveRoot.orderOf _
  obtain ⟨n, -, hn⟩ := hroot.eq_pow_of_pow_eq_one ha
  exact ⟨n, eq_of_cast hlt (pow_lt _ _) (by rw [cast_pow, hn])⟩

end Prime

/-! ## Encodings -/

@[simp] theorem toNat_encode (a : Nat) : (S.encode a).toNat = a := by
  rw [encode, Bytes.toNat_padLeft, Bytes.toNat_ofNat]

/-- All members are encoded in as many bytes. -/
theorem encode_length {a : Nat} (ha : S.isMember a = true) :
    (S.encode a).length = S.elementLength := by
  have hlt : a < S.p := by
    simp only [isMember, Bool.and_eq_true, decide_eq_true_eq] at ha
    exact ha.1.2
  refine Bytes.padLeft_length (Bytes.ofNat_length_le ?_ (hlt.trans (lt_pow_bytes S.p)))
  have hbits : bitLength S.p ≠ 0 := by
    unfold bitLength
    split <;> omega
  unfold elementLength
  omega

theorem decode?_encode {a : Nat} (ha : S.isMember a = true) : S.decode? (S.encode a) = some a := by
  simp [decode?, encode_length ha, ha]

theorem isMember_of_decode? {bs : Bytes} {a : Nat} (h : S.decode? bs = some a) :
    S.isMember a = true := by
  unfold decode? at h
  split at h
  · rename_i hbs
    obtain rfl := Option.some.inj h
    simp only [Bool.and_eq_true] at hbs
    exact hbs.2
  · cases h

/-! ## The group -/

/-- Parameters that pass the check describe a group of prime order, if the numbers that passed the
test for primes are primes. -/
theorem lawful (hp : S.p.Prime) (hq : S.q.Prime) (h : S.hasPrimeOrder = true) :
    S.toPrimeGroup.Lawful := by
  have := Fact.mk hp
  obtain ⟨hg, hgp, hgq⟩ := of_hasPrimeOrder h
  have hone : S.isMember 1 = true :=
    (isMember_iff hq.pos).mpr ⟨hp.one_lt, by rw [Nat.cast_one, one_pow]⟩
  have hpow : S.pow S.g S.q = 1 :=
    eq_of_cast (pow_lt _ _) hp.one_lt (by rw [cast_pow, hgq, Nat.cast_one])
  exact {
    order_prime := hq
    identity_mem := hone
    generator_mem := (isMember_iff hq.pos).mpr ⟨hgp, hgq⟩
    mul_mem := isMember_mul hq.pos
    inv_mem := isMember_pow hq.pos (S.q - 1)
    pow_mem := isMember_pow hq.pos
    mul_assoc := fun _ _ _ => mul_assoc' _ _ _
    mul_comm := fun _ _ => mul_comm' _ _
    identity_mul := one_mul' hq.pos
    inv_mul := inv_mul hq.pos
    pow_zero := fun _ => (powMod_eq _ 0 S.p).trans (Nat.mod_eq_of_lt hp.one_lt)
    pow_succ := fun n _ => pow_succ' _ n
    generator_ne := Nat.ne_of_gt hg
    pow_order := hpow
    generates := exists_pow_eq hq h
    decode_encode := decode?_encode
    isMember_of_decode := isMember_of_decode? }

theorem isValid_toPrimeGroup (S : SchnorrGroup) : S.toPrimeGroup.isValid = S.hasPrimeOrder := rfl

/-! ## A small group -/

/-- The squares modulo 2039, a group of order 1019. -/
def small : SchnorrGroup := ⟨2039, 1019, 4⟩

theorem small_hasPrimeOrder : small.hasPrimeOrder = true := by decide +kernel

theorem small_isValid : small.toPrimeGroup.isValid = true := by
  rw [isValid_toPrimeGroup, small_hasPrimeOrder]

theorem small_lawful : small.toPrimeGroup.Lawful :=
  lawful (by norm_num [small]) (by norm_num [small]) small_hasPrimeOrder

end SchnorrGroup

end SigmaProofs
