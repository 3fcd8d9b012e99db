import SigmaProofs.Arithmetic.Operations

/-!
# Inverses modulo a number

`inverseMod? a m` is the inverse of `a` modulo `m` if there is one, by Euclid's algorithm with one
cofactor; `isUnit a m` says whether `a` is coprime with `m` and not zero. `negMod m a` is the
inverse of `a` with respect to addition.
-/

namespace SigmaProofs

/-- The number below `m` whose sum with `a` is a multiple of `m`. -/
def negMod (m a : Nat) : Nat := (m - a % m) % m

/-- Euclid's algorithm on the remainders `r` and `r'`, with cofactors `t` and `t'` of a common
number: the last remainder that is not zero, and its cofactor. -/
def euclid (r r' : Nat) (t t' : Int) : Nat × Int :=
  if r' = 0 then (r, t) else euclid r' (r % r') t' (t - (r / r' : Nat) * t')
termination_by r'
decreasing_by exact Nat.mod_lt _ (by omega)

/-- The number below `modulus` whose product with `a` leaves 1. A modulus of zero is found out before
anything is divided. -/
def Arithmetic.inverse? {m : Type → Type} [Monad m] (A : Arithmetic m) (a modulus : Nat) :
    m (Option Nat) := do
  if modulus = 0 then return none
  else
    let (g, t) := euclid modulus (← A.rem a modulus) 0 1
    return if g = 1 then some (t % modulus).toNat else none

def inverseMod? (a m : Nat) : Option Nat := Id.run (Arithmetic.plain.inverse? a m)

/-- Whether `a` is not zero and has no common factor with `m`. -/
def isUnit (a m : Nat) : Bool := a != 0 && Nat.gcd a m == 1

/-- The first result of Euclid's algorithm is the greatest common divisor. -/
theorem euclid_fst (r r' : Nat) (t t' : Int) : (euclid r r' t t').1 = Nat.gcd r r' := by
  fun_induction euclid r r' t t' with
  | case1 => simp
  | case2 r r' t t' h ih => rw [ih, Nat.gcd_comm, ← Nat.gcd_rec, Nat.gcd_comm]

/-- What the cofactors mean for the remainders is kept up to the end. -/
theorem euclid_snd {a m : Nat} {r r' : Nat} {t t' : Int} (h : (m : Int) ∣ t * a - r)
    (h' : (m : Int) ∣ t' * a - r') :
    (m : Int) ∣ (euclid r r' t t').2 * a - (euclid r r' t t').1 := by
  fun_induction euclid r r' t t' with
  | case1 => exact h
  | case2 r r' t t' hr ih =>
    refine ih h' ?_
    have hdiv : (r : Int) = r' * (r / r' : Nat) + (r % r' : Nat) := by
      exact_mod_cast (Nat.div_add_mod r r').symm
    have : (t - (r / r' : Nat) * t') * a - (r % r' : Nat)
        = (t * a - r) - (r / r' : Nat) * (t' * a - r') := by grind
    rw [this]
    exact Int.dvd_sub h (Int.dvd_trans h' (Int.dvd_mul_left ..))

theorem inverseMod?_def (a m : Nat) : inverseMod? a m =
    if m = 0 then none
    else if (euclid m (a % m) 0 1).1 = 1 then some ((euclid m (a % m) 0 1).2 % m).toNat
    else none := by
  unfold inverseMod? Arithmetic.inverse?
  split <;> rfl

/-- With exact arithmetic, the inverse is found whatever the modulus is. -/
theorem Arithmetic.Exact.inverse?_eq {m : Type → Type} [Monad m] [LawfulMonad m]
    {A : Arithmetic m} (hA : A.Exact) (a modulus : Nat) :
    A.inverse? a modulus = pure (inverseMod? a modulus) := by
  unfold Arithmetic.inverse? inverseMod?
  by_cases h : modulus = 0
  · simp only [if_pos h, Arithmetic.inverse?]
    rfl
  · simp only [if_neg h, hA.rem (Nat.pos_of_ne_zero h), pure_bind, Arithmetic.inverse?]
    rfl

/-- An inverse exists exactly for the numbers coprime with the modulus. -/
theorem inverseMod?_isSome_iff {a m : Nat} (hm : 0 < m) :
    (inverseMod? a m).isSome ↔ Nat.gcd a m = 1 := by
  have : Nat.gcd m (a % m) = Nat.gcd a m := by rw [Nat.gcd_comm, ← Nat.gcd_rec, Nat.gcd_comm]
  have hm' : m ≠ 0 := by omega
  simp only [inverseMod?_def, hm', if_false, euclid_fst, this]
  split <;> simp_all

/-- An inverse is below the modulus, and its product with the number is 1. -/
theorem inverseMod?_eq_some {a m b : Nat} (h : inverseMod? a m = some b) :
    b < m ∧ a * b % m = 1 % m := by
  rw [inverseMod?_def] at h
  split at h
  · cases h
  next hm =>
  split at h
  next hg =>
    have hpos : (0 : Int) < m := by omega
    have hb : b = ((euclid m (a % m) 0 1).2 % m).toNat := by simpa using h.symm
    have hnn := Int.emod_nonneg (euclid m (a % m) 0 1).2 (Int.ne_of_gt hpos)
    have hlt := Int.emod_lt_of_pos (euclid m (a % m) 0 1).2 hpos
    refine ⟨by omega, ?_⟩
    have key : (m : Int) ∣ (euclid m (a % m) 0 1).2 * a - (euclid m (a % m) 0 1).1 := by
      refine euclid_snd (by simp) ?_
      have := Nat.div_add_mod a m
      refine ⟨(a / m : Nat), ?_⟩
      have h2 : (a : Int) = m * (a / m : Nat) + (a % m : Nat) := by exact_mod_cast this.symm
      grind
    rw [hg] at key
    have hbt : (b : Int) = (euclid m (a % m) 0 1).2 % m := by rw [hb]; omega
    have : ((a * b : Nat) : Int) % m = ((1 : Nat) : Int) % m := by
      rw [Int.natCast_mul, hbt, Int.mul_emod, Int.emod_emod, ← Int.mul_emod, Int.mul_comm]
      exact Int.emod_eq_emod_iff_emod_sub_eq_zero.2 (Int.emod_eq_zero_of_dvd key)
    exact_mod_cast this
  · cases h

end SigmaProofs
