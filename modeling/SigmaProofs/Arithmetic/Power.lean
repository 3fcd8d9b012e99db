/-!
# Powers and powers modulo a number

A power `b ^ e` of natural numbers is `Nat.pow b e`, also in modules that know other instances for
powers. `powMod b e m` is `b ^ e % m` (`powMod_eq`), by repeated squaring, so that no intermediate
value exceeds the square of the modulus.
-/

namespace SigmaProofs

/-- Powers of natural numbers, with a priority above those of libraries. -/
instance (priority := 20000) powNat : Pow Nat Nat := instPowNat

/-- `b ^ e % m`. -/
def powMod (b e m : Nat) : Nat :=
  if e = 0 then 1 % m
  else
    let half := powMod b (e / 2) m
    let square := half * half % m
    if e % 2 = 1 then square * b % m else square
termination_by e
decreasing_by omega

theorem powMod_eq (b e m : Nat) : powMod b e m = b ^ e % m := by
  fun_induction powMod b e m with
  | case1 => simp
  | case2 e _ half square hodd ih =>
    have he : e = e / 2 + e / 2 + 1 := by omega
    have hs : square = b ^ (e / 2 + e / 2) % m := by
      rw [Nat.pow_add, Nat.mul_mod, ← ih]
    rw [hs, Nat.mod_mul_mod, ← Nat.pow_succ, Nat.succ_eq_add_one, ← he]
  | case3 e _ half square heven ih =>
    have he : e = e / 2 + e / 2 := by omega
    have hs : square = b ^ (e / 2 + e / 2) % m := by
      rw [Nat.pow_add, Nat.mul_mod, ← ih]
    rw [hs, ← he]

theorem powMod_lt {b e m : Nat} (h : 0 < m) : powMod b e m < m := by
  rw [powMod_eq]; exact Nat.mod_lt _ h

end SigmaProofs
