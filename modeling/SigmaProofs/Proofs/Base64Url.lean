import SigmaProofs.Base64Url

/-!
# Base64 texts are read back

`Base64Url.decode?_encode`: byte strings of any length, the empty one included. The last group has
two or three digits if the length is no multiple of three.
-/

namespace SigmaProofs.Base64Url

/-- The byte whose number is put together again from the digits. -/
theorem ofNat_eq {b : UInt8} {n : Nat} (h : n = b.toNat) : UInt8.ofNat n = b := by
  rw [h, UInt8.ofNat_toNat]

theorem decode?_encode (bs : Bytes) : decode? (encode bs) = some bs := by
  fun_induction encode bs with
  | case1 => rfl
  | case2 a =>
    have ha := a.toNat_lt
    simp only [decode?, digitOf?_digitChar (a.toNat / 4) (by omega),
      digitOf?_digitChar (a.toNat % 4 * 16) (by omega), Option.bind_eq_bind, Option.bind_some]
    rw [if_pos (by omega), ofNat_eq (b := a) (by omega)]
  | case3 a b =>
    have ha := a.toNat_lt
    have hb := b.toNat_lt
    simp only [decode?, digitOf?_digitChar (a.toNat / 4) (by omega),
      digitOf?_digitChar (a.toNat % 4 * 16 + b.toNat / 16) (by omega),
      digitOf?_digitChar (b.toNat % 16 * 4) (by omega), Option.bind_eq_bind, Option.bind_some]
    rw [if_pos (by omega), ofNat_eq (b := a) (by omega), ofNat_eq (b := b) (by omega)]
  | case4 a b c rest ih =>
    have ha := a.toNat_lt
    have hb := b.toNat_lt
    have hc := c.toNat_lt
    simp only [decode?, digitOf?_digitChar (a.toNat / 4) (by omega),
      digitOf?_digitChar (a.toNat % 4 * 16 + b.toNat / 16) (by omega),
      digitOf?_digitChar (b.toNat % 16 * 4 + c.toNat / 64) (by omega),
      digitOf?_digitChar (c.toNat % 64) (by omega), ih, Option.bind_eq_bind, Option.bind_some]
    rw [ofNat_eq (b := a) (by omega), ofNat_eq (b := b) (by omega), ofNat_eq (b := c) (by omega)]
    rfl

end SigmaProofs.Base64Url
