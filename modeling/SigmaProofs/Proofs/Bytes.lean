import SigmaProofs.Bytes

/-!
# Byte strings as numbers

* `Bytes.toNat_inj`: strings of one length are told apart by their numbers.
* `Bytes.toNat_ofNat`, `Bytes.toNat_padLeft`: what was written is read back, whatever the width.
* `Bytes.ofNat_length_le`: a number below `256 ^ k` takes at most `k` bytes.
-/

namespace SigmaProofs

/-! ## Least significant byte first -/

theorem ofLittleEndian_lt (bs : Bytes) : ofLittleEndian bs < 256 ^ bs.length := by
  induction bs with
  | nil => simp [ofLittleEndian]
  | cons b bs ih =>
    have hb := b.toNat_lt
    rw [ofLittleEndian, List.length_cons, Nat.pow_succ]
    omega

theorem ofLittleEndian_inj {as bs : Bytes} (hl : as.length = bs.length)
    (h : ofLittleEndian as = ofLittleEndian bs) : as = bs := by
  induction as generalizing bs with
  | nil => exact (List.length_eq_zero_iff.mp hl.symm).symm
  | cons a as ih =>
    obtain _ | ⟨b, bs⟩ := bs
    · simp at hl
    have ha := a.toNat_lt
    have hb := b.toNat_lt
    simp only [ofLittleEndian] at h
    obtain ⟨hab, hrest⟩ : a.toNat = b.toNat ∧ ofLittleEndian as = ofLittleEndian bs := by omega
    rw [UInt8.toNat_inj.mp hab, ih (by simpa using hl) hrest]

/-- Zeros at the top do not count. -/
theorem ofLittleEndian_append_zeros (bs : Bytes) (k : Nat) :
    ofLittleEndian (bs ++ List.replicate k 0) = ofLittleEndian bs := by
  induction bs with
  | nil =>
    induction k with
    | zero => rfl
    | succ k ih => rw [List.replicate_succ]; simp_all [ofLittleEndian]
  | cons b bs ih => rw [List.cons_append, ofLittleEndian, ofLittleEndian, ih]

theorem ofLittleEndian_map_ofNat {ds : List Nat} (h : ∀ d ∈ ds, d < 256) :
    ofLittleEndian (ds.map UInt8.ofNat) = ofDigits 256 ds := by
  induction ds with
  | nil => rfl
  | cons d ds ih =>
    obtain ⟨hd, hds⟩ := List.forall_mem_cons.mp h
    rw [List.map_cons, ofLittleEndian, ofDigits, ih hds, UInt8.toNat_ofNat',
      Nat.mod_eq_of_lt hd]

/-! ## Most significant byte first -/

theorem digits_length_le {b k n : Nat} (h : n < b ^ k) : (digits b n).length ≤ k := by
  induction k generalizing n with
  | zero =>
    obtain rfl : n = 0 := by simpa using h
    rw [digits]
    simp
  | succ k ih =>
    rw [digits]
    split
    · simp
    · have hn : n / b < b ^ k := Nat.div_lt_of_lt_mul (by rwa [Nat.mul_comm, ← Nat.pow_succ])
      rw [List.length_cons]
      exact Nat.succ_le_succ (ih hn)

namespace Bytes

theorem toNat_lt (bs : Bytes) : bs.toNat < 256 ^ bs.length := by
  simpa [toNat] using ofLittleEndian_lt bs.reverse

/-- Strings of one length with the same number are equal. -/
theorem toNat_inj {as bs : Bytes} (hl : as.length = bs.length) (h : as.toNat = bs.toNat) :
    as = bs :=
  List.reverse_inj.mp (ofLittleEndian_inj (by simpa using hl) h)

/-- A number is read back from its bytes. -/
@[simp] theorem toNat_ofNat (n : Nat) : (ofNat n).toNat = n := by
  unfold ofNat toNat
  split
  · subst_vars
    rfl
  · rw [List.reverse_reverse, ofLittleEndian_map_ofNat fun d hd => digits_lt hd,
      ofDigits_digits (by decide)]

/-- Zero bytes in front do not count. -/
@[simp] theorem toNat_padLeft (k : Nat) (bs : Bytes) : (bs.padLeft k).toNat = bs.toNat := by
  rw [padLeft, toNat, List.reverse_append, List.reverse_replicate, ofLittleEndian_append_zeros,
    toNat]

theorem ofNat_length_le {k n : Nat} (hk : 0 < k) (h : n < 256 ^ k) : (ofNat n).length ≤ k := by
  unfold ofNat
  split
  · exact hk
  · rw [List.length_reverse, List.length_map]
    exact digits_length_le h

theorem padLeft_length {k : Nat} {bs : Bytes} (h : bs.length ≤ k) : (bs.padLeft k).length = k := by
  rw [padLeft, List.length_append, List.length_replicate]
  omega

end Bytes

/-- A number is below the power of two with its bit length. -/
theorem lt_two_pow_bitLength (n : Nat) : n < 2 ^ bitLength n := by
  unfold bitLength
  split
  · subst_vars
    exact Nat.one_pos
  · exact Nat.lt_log2_self

theorem bitLength_le_of_lt {p n : Nat} (h : n < 2 ^ p) : bitLength n ≤ p := by
  unfold bitLength
  split
  · omega
  next hn => exact (Nat.log2_lt hn).2 h

end SigmaProofs
