import Mathlib.Data.Nat.ModEq
import Mathlib.Data.Nat.Prime.Basic
import Mathlib.Data.ZMod.Basic
import SigmaProofs.Arithmetic.Inverse
import SigmaProofs.Arithmetic.Power

/-!
# Arithmetic modulo a number

What the operations on residues compute, as equations in `ZMod m` (`cast_powMod`,
`cast_mul_inverse`) and as divisibility (`dvd_negMod_add`).

* `isUnit_iff`: the units are the numbers coprime with the modulus.
* `mul_inverse_difference`: different numbers below a prime have an invertible difference.
-/

namespace SigmaProofs

theorem cast_powMod (a e m : Nat) : ((powMod a e m : Nat) : ZMod m) = (a : ZMod m) ^ e := by
  rw [powMod_eq, ZMod.natCast_mod, Nat.cast_pow]

/-- Reduced numbers are equal if they are equal as residues. -/
theorem eq_of_cast {m a b : Nat} (ha : a < m) (hb : b < m) (h : (a : ZMod m) = b) : a = b := by
  have hmod := (ZMod.natCast_eq_natCast_iff' a b m).mp h
  rwa [Nat.mod_eq_of_lt ha, Nat.mod_eq_of_lt hb] at hmod

theorem isUnit_iff {a m : Nat} (hm : 1 < m) : isUnit a m = true ↔ a.Coprime m := by
  simp only [isUnit, Bool.and_eq_true, bne_iff_ne, beq_iff_eq, and_iff_right_iff_imp]
  rintro h rfl
  rw [Nat.gcd_zero_left] at h
  omega

theorem coprime_of_modEq {a b n : Nat} (h : a ≡ b [MOD n]) (hb : b.Coprime n) : a.Coprime n := by
  have := h.gcd_eq
  rw [Nat.Coprime, this]
  exact hb

theorem powMod_coprime {a n : Nat} (ha : a.Coprime n) (e : Nat) : (powMod a e n).Coprime n := by
  rw [powMod_eq]
  exact coprime_of_modEq (Nat.mod_modEq _ n) (ha.pow_left e)

/-- A number and its negation add up to a multiple of the modulus. -/
theorem dvd_negMod_add {m : Nat} (hm : 0 < m) (n : Nat) : m ∣ negMod m n + n := by
  have hn := Nat.mod_lt n hm
  have hdiv := Nat.div_add_mod n m
  have hsum : m - n % m + n = m * (n / m + 1) := by
    rw [Nat.mul_succ]
    omega
  refine Nat.dvd_of_mod_eq_zero ?_
  rw [negMod, Nat.mod_add_mod, hsum, Nat.mul_mod_right]

theorem cast_negMod {m : Nat} (hm : 0 < m) (n : Nat) : ((negMod m n : Nat) : ZMod m) = -n := by
  refine eq_neg_of_add_eq_zero_left ?_
  rw [← Nat.cast_add, ZMod.natCast_eq_zero_iff]
  exact dvd_negMod_add hm n

/-- A number coprime with the modulus has an inverse. -/
theorem exists_inverse {a m : Nat} (hm : 0 < m) (h : a.Coprime m) :
    ∃ b, inverseMod? a m = some b ∧ a * b % m = 1 % m := by
  obtain ⟨b, hb⟩ := Option.isSome_iff_exists.mp ((inverseMod?_isSome_iff hm).mpr h)
  exact ⟨b, hb, (inverseMod?_eq_some hb).2⟩

theorem cast_mul_inverse {a b m : Nat} (h : a * b % m = 1 % m) : (a : ZMod m) * b = 1 := by
  have := (ZMod.natCast_eq_natCast_iff' (a * b) 1 m).mpr h
  rwa [Nat.cast_mul, Nat.cast_one] at this

/-- Different numbers below a prime have an invertible difference. -/
theorem mul_inverse_difference {q e e' : Nat} (hq : q.Prime) (he : e < q) (he' : e' < q)
    (hne : e ≠ e') :
    (e + negMod q e') * (inverseMod? (e + negMod q e') q).getD 0 % q = 1 % q := by
  have hdvd : ¬ q ∣ e + negMod q e' := by
    intro h
    have hneg : q ∣ e' + negMod q e' := Nat.add_comm .. ▸ dvd_negMod_add hq.pos e'
    have hmod : e + negMod q e' ≡ e' + negMod q e' [MOD q] :=
      (Nat.modEq_zero_iff_dvd.mpr h).trans (Nat.modEq_zero_iff_dvd.mpr hneg).symm
    exact hne ((Nat.ModEq.add_right_cancel' _ hmod).eq_of_lt_of_lt he he')
  obtain ⟨b, hb, hinv⟩ :=
    exists_inverse hq.pos ((Nat.Prime.coprime_iff_not_dvd hq).mpr hdvd).symm
  rw [hb]
  exact hinv

end SigmaProofs
