import Mathlib.GroupTheory.OrderOfElement
import SigmaProofs.Group
import SigmaProofs.Proofs.Modular

/-!
# Groups of prime order

`PrimeGroup.Lawful` is what the protocols rely on: the members form a group that the generator
generates, its order is the prime `q`, and members can be encoded and decoded. Nothing is said of
the operations on values that are no members.

The members of a lawful group are a `CommGroup` (`PrimeGroup.Member`), in which exponents count
modulo `q` (`Member.pow_mod_order`) and `negMod` gives inverses (`Member.pow_negMod`). The generator
has order `q` (`Member.orderOf_generator`).
-/

namespace SigmaProofs

variable {E : Type}

namespace PrimeGroup

/-- The members form a group of prime order with the given generator, and their encodings are read
back. -/
class Lawful (G : PrimeGroup E) : Prop where
  order_prime : G.order.Prime
  identity_mem : G.isMember G.identity = true
  generator_mem : G.isMember G.generator = true
  mul_mem {a b : E} : G.isMember a = true → G.isMember b = true → G.isMember (G.mul a b) = true
  inv_mem {a : E} : G.isMember a = true → G.isMember (G.inv a) = true
  pow_mem {a : E} (n : Nat) : G.isMember a = true → G.isMember (G.pow a n) = true
  mul_assoc {a b c : E} : G.isMember a = true → G.isMember b = true → G.isMember c = true →
    G.mul (G.mul a b) c = G.mul a (G.mul b c)
  mul_comm {a b : E} : G.isMember a = true → G.isMember b = true → G.mul a b = G.mul b a
  identity_mul {a : E} : G.isMember a = true → G.mul G.identity a = a
  inv_mul {a : E} : G.isMember a = true → G.mul (G.inv a) a = G.identity
  pow_zero {a : E} : G.isMember a = true → G.pow a 0 = G.identity
  pow_succ {a : E} (n : Nat) : G.isMember a = true → G.pow a (n + 1) = G.mul (G.pow a n) a
  generator_ne : G.generator ≠ G.identity
  pow_order : G.pow G.generator G.order = G.identity
  generates {a : E} : G.isMember a = true → ∃ n, a = G.pow G.generator n
  decode_encode {a : E} : G.isMember a = true → G.decode? (G.encode a) = some a
  isMember_of_decode {bs : Bytes} {a : E} : G.decode? bs = some a → G.isMember a = true

/-- An element that belongs to the group. -/
@[ext] structure Member (G : PrimeGroup E) where
  val : E
  property : G.isMember val = true

namespace Member

variable {G : PrimeGroup E} [G.Lawful]

instance : CommGroup G.Member where
  mul a b := ⟨G.mul a.val b.val, Lawful.mul_mem a.property b.property⟩
  one := ⟨G.identity, Lawful.identity_mem⟩
  inv a := ⟨G.inv a.val, Lawful.inv_mem a.property⟩
  npow n a := ⟨G.pow a.val n, Lawful.pow_mem n a.property⟩
  mul_assoc a b c := Member.ext (Lawful.mul_assoc a.property b.property c.property)
  mul_comm a b := Member.ext (Lawful.mul_comm a.property b.property)
  one_mul a := Member.ext (Lawful.identity_mul a.property)
  mul_one a := Member.ext ((Lawful.mul_comm a.property Lawful.identity_mem).trans
    (Lawful.identity_mul a.property))
  inv_mul_cancel a := Member.ext (Lawful.inv_mul a.property)
  npow_zero a := Member.ext (Lawful.pow_zero a.property)
  npow_succ n a := Member.ext (Lawful.pow_succ n a.property)

variable (G) in
/-- The generator as a member. -/
def generator : G.Member := ⟨G.generator, Lawful.generator_mem⟩

/-! ## Exponents -/

theorem pow_order (a : G.Member) : a ^ G.order = 1 := by
  obtain ⟨n, hn⟩ := Lawful.generates a.property
  have ha : a = generator G ^ n := Member.ext hn
  have hg : generator G ^ G.order = 1 := Member.ext Lawful.pow_order
  rw [ha, ← pow_mul, Nat.mul_comm, pow_mul, hg, one_pow]

/-- Exponents count modulo the order. -/
theorem pow_mod_order (a : G.Member) (n : Nat) : a ^ (n % G.order) = a ^ n :=
  (pow_eq_pow_mod n a.pow_order).symm

theorem pow_eq_of_cast_eq (a : G.Member) {m n : Nat} (h : (m : ZMod G.order) = n) :
    a ^ m = a ^ n := by
  rw [← a.pow_mod_order m, (ZMod.natCast_eq_natCast_iff' m n G.order).mp h, a.pow_mod_order]

theorem pow_eq_one_of_dvd (a : G.Member) {n : Nat} (h : G.order ∣ n) : a ^ n = 1 := by
  obtain ⟨k, rfl⟩ := h
  rw [pow_mul, a.pow_order, one_pow]

/-- A negated exponent gives the inverse. -/
theorem pow_negMod (a : G.Member) (n : Nat) : a ^ negMod G.order n = (a ^ n)⁻¹ := by
  refine eq_inv_of_mul_eq_one_left ?_
  rw [← pow_add]
  exact a.pow_eq_one_of_dvd (dvd_negMod_add Lawful.order_prime.pos n)

/-- As the order of the group is a prime, it is that of each member but the identity. -/
theorem orderOf_eq {a : G.Member} (ha : a ≠ 1) : orderOf a = G.order := by
  have := Fact.mk (Lawful.order_prime (G := G))
  exact orderOf_eq_prime a.pow_order ha

theorem orderOf_generator : orderOf (generator G) = G.order :=
  orderOf_eq fun h => Lawful.generator_ne (congrArg Member.val h)

/-- A power of the generator determines the powers of all members with that exponent. -/
theorem pow_eq_of_generator_pow_eq {m n : Nat} (h : generator G ^ m = generator G ^ n)
    (a : G.Member) : a ^ m = a ^ n := by
  rw [pow_eq_pow_iff_modEq, orderOf_generator] at h
  rw [← a.pow_mod_order m, h, a.pow_mod_order]

end Member

theorem Lawful.pow_eq_of_powGenerator_eq {G : PrimeGroup E} [G.Lawful] {a : E}
    (ha : G.isMember a = true) {m n : Nat} (h : G.powGenerator m = G.powGenerator n) :
    G.pow a m = G.pow a n :=
  congrArg Member.val (Member.pow_eq_of_generator_pow_eq (Member.ext h) ⟨a, ha⟩)

end PrimeGroup

end SigmaProofs
