import Mathlib.GroupTheory.SpecificGroups.Cyclic
import SigmaProofs.Proofs.Group.Schnorr

/-!
# Groups of prime order are cyclic

As the order `q` is a prime, each member of a lawful group but the identity has that order, and its
powers with the exponents `0`, …, `q - 1` are all members, without repetition.

* `Member.card`: there are `q` members.
* `Member.bijOn_pow`: the powers of a member other than the identity.
* `PrimeGroup.CyclicOfPrimeOrder`: what the operations do on members and exponents of any size. All
  lawful groups are like this (`Lawful.cyclic`), and so is a Schnorr group whose parameters are
  accepted, if the two numbers that pass the test for primes are primes.
-/

namespace SigmaProofs

variable {E : Type}

namespace PrimeGroup

/-! ## Members as powers -/

namespace Member

variable {G : PrimeGroup E} [G.Lawful]

theorem mem_zpowers_generator (a : G.Member) : a ∈ Subgroup.zpowers (generator G) := by
  obtain ⟨n, hn⟩ := Lawful.generates a.property
  have ha : a = generator G ^ n := Member.ext hn
  rw [ha]
  exact Subgroup.npow_mem_zpowers _ n

theorem card : Nat.card G.Member = G.order := by
  rw [← orderOf_eq_card_of_forall_mem_zpowers mem_zpowers_generator, orderOf_generator]

/-- Every member is a power of any member but the identity, with a reduced exponent. -/
theorem exists_pow_lt {a : G.Member} (ha : a ≠ 1) (b : G.Member) : ∃ n < G.order, a ^ n = b := by
  have := Fact.mk (Lawful.order_prime (G := G))
  have hmem : b ∈ Submonoid.powers a := mem_powers_of_prime_card card ha
  obtain ⟨n, hn⟩ := hmem
  refine ⟨n % G.order, Nat.mod_lt n Lawful.order_prime.pos, ?_⟩
  rw [a.pow_mod_order]
  exact hn

/-- The powers of a member other than the identity run through all members once. -/
theorem bijOn_pow {a : E} (ha : G.isMember a = true) (hne : a ≠ G.identity) :
    Set.BijOn (G.pow a) (Set.Iio G.order) {b | G.isMember b = true} := by
  have hne' : (⟨a, ha⟩ : G.Member) ≠ 1 := by
    intro h
    exact hne (congrArg Member.val h)
  refine ⟨?_, ?_, ?_⟩
  · intro n _
    exact Lawful.pow_mem n ha
  · intro m hm n hn h
    have hpow : (⟨a, ha⟩ : G.Member) ^ m = ⟨a, ha⟩ ^ n := Member.ext h
    rw [← orderOf_eq hne'] at hm hn
    exact pow_injOn_Iio_orderOf hm hn hpow
  · intro b hb
    obtain ⟨n, hn, hpow⟩ := exists_pow_lt hne' ⟨b, hb⟩
    exact ⟨n, hn, congrArg Member.val hpow⟩

end Member

/-! ## The group -/

/-- The members are a commutative group of `q` elements with the given operations, in which the
generator, and each member but the identity, generates all others. Exponents are any numbers. -/
structure CyclicOfPrimeOrder (G : PrimeGroup E) : Prop where
  order_prime : G.order.Prime
  /-- The members are `g ^ 0`, …, `g ^ (q - 1)`, and these are all different. -/
  powers : Set.BijOn G.powGenerator (Set.Iio G.order) {x | G.isMember x = true}
  generates {x : E} (hx : G.isMember x = true) (hne : x ≠ G.identity) :
    Set.BijOn (G.pow x) (Set.Iio G.order) {y | G.isMember y = true}
  identity_mem : G.isMember G.identity = true
  mul_mem {x y : E} (hx : G.isMember x = true) (hy : G.isMember y = true) :
    G.isMember (G.mul x y) = true
  inv_mem {x : E} (hx : G.isMember x = true) : G.isMember (G.inv x) = true
  pow_mem {x : E} (hx : G.isMember x = true) (a : Nat) : G.isMember (G.pow x a) = true
  doublePow_mem {x y : E} (hx : G.isMember x = true) (hy : G.isMember y = true) (a b : Nat) :
    G.isMember (G.doublePow x a y b) = true
  mul_assoc {x y z : E} (hx : G.isMember x = true) (hy : G.isMember y = true)
    (hz : G.isMember z = true) : G.mul (G.mul x y) z = G.mul x (G.mul y z)
  mul_comm {x y : E} (hx : G.isMember x = true) (hy : G.isMember y = true) :
    G.mul x y = G.mul y x
  mul_identity {x : E} (hx : G.isMember x = true) : G.mul x G.identity = x
  mul_inv {x : E} (hx : G.isMember x = true) : G.mul x (G.inv x) = G.identity
  pow_mod {x : E} (hx : G.isMember x = true) (a : Nat) : G.pow x a = G.pow x (a % G.order)
  mul_pow_pow {x : E} (hx : G.isMember x = true) (a b : Nat) :
    G.mul (G.pow x a) (G.pow x b) = G.pow x (a + b)
  pow_pow {x : E} (hx : G.isMember x = true) (a b : Nat) :
    G.pow (G.pow x a) b = G.pow x (a * b)
  mul_pow {x y : E} (hx : G.isMember x = true) (hy : G.isMember y = true) (a : Nat) :
    G.pow (G.mul x y) a = G.mul (G.pow x a) (G.pow y a)
  pow_negMod {x : E} (hx : G.isMember x = true) (a : Nat) :
    G.pow x (negMod G.order a) = G.inv (G.pow x a)

theorem Lawful.cyclic (G : PrimeGroup E) [G.Lawful] : G.CyclicOfPrimeOrder where
  order_prime := order_prime
  powers := Member.bijOn_pow generator_mem generator_ne
  generates := Member.bijOn_pow
  identity_mem := identity_mem
  mul_mem := mul_mem
  inv_mem := inv_mem
  pow_mem hx a := pow_mem a hx
  doublePow_mem hx hy a b := mul_mem (pow_mem a hx) (pow_mem b hy)
  mul_assoc := mul_assoc
  mul_comm := mul_comm
  mul_identity {x} hx := congrArg Member.val (mul_one (⟨x, hx⟩ : G.Member))
  mul_inv {x} hx := congrArg Member.val (mul_inv_cancel (⟨x, hx⟩ : G.Member))
  pow_mod {x} hx a := congrArg Member.val (Member.pow_mod_order ⟨x, hx⟩ a).symm
  mul_pow_pow {x} hx a b := congrArg Member.val (pow_add (⟨x, hx⟩ : G.Member) a b).symm
  pow_pow {x} hx a b := congrArg Member.val (pow_mul (⟨x, hx⟩ : G.Member) a b).symm
  mul_pow {x y} hx hy a :=
    congrArg Member.val (mul_pow (⟨x, hx⟩ : G.Member) ⟨y, hy⟩ a)
  pow_negMod {x} hx a := congrArg Member.val (Member.pow_negMod ⟨x, hx⟩ a)

end PrimeGroup

/-! ## Schnorr groups -/

namespace SchnorrGroup

/-- Accepted parameters describe a cyclic group of order `q`, whatever the cofactor of `q` in
`p - 1` is. -/
theorem cyclicOfPrimeOrder_of_accepted {S : SchnorrGroup} {p q g : Nat}
    (h : ofParameters p q g = .ok S) (hp : p.Prime) (hq : q.Prime) :
    S.toPrimeGroup.order = q ∧ S.toPrimeGroup.CyclicOfPrimeOrder := by
  obtain ⟨rfl, hcheck⟩ := ofParameters_eq_ok.mp h
  have := lawful hp hq hcheck
  exact ⟨rfl, PrimeGroup.Lawful.cyclic _⟩

/-- The powers 1, 7 and 11 of 7 modulo 19. The square of the order 3 divides 18. -/
theorem cyclicOfPrimeOrder_of_accepted_seven :
    ofParameters 19 3 7 = .ok ⟨19, 3, 7⟩ ∧
      (⟨19, 3, 7⟩ : SchnorrGroup).toPrimeGroup.CyclicOfPrimeOrder := by
  have h : ofParameters 19 3 7 = .ok ⟨19, 3, 7⟩ := by decide +kernel
  exact ⟨h, (cyclicOfPrimeOrder_of_accepted h (by norm_num) (by norm_num)).2⟩

end SchnorrGroup

end SigmaProofs
