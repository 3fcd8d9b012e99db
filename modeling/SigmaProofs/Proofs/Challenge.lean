import SigmaProofs.Proofs.Bytes
import SigmaProofs.Verifier

/-!
# Challenges as numbers and as sums of shares

* `challengeNumber_lt`, `challengeNumber_inj`, `exists_challenge`: challenges of `t` bits are the
  numbers below `2 ^ t`, and different challenges are different numbers.
* On strings of one length, `Bytes.xor` is a commutative group in which every string is its own
  inverse. `Bytes.sum` adds up the shares of a challenge.
* `sharesAddUp_middle`: shares add up to a challenge if one of them is what the others leave
  missing.
* `Bytes.eq_of_sum_set`: a share cannot be replaced by another one without changing the sum.
-/

namespace SigmaProofs

theorem Soundness.byteLength_pos (t : Soundness) : 0 < t.byteLength := by
  have := t.bits_pos
  have := t.bits_aligned
  unfold byteLength
  omega

theorem Soundness.pow_byteLength (t : Soundness) : 256 ^ t.byteLength = 2 ^ t.bits := by
  have hbits : 8 * t.byteLength = t.bits := by
    have := t.bits_aligned
    unfold byteLength
    omega
  rw [← hbits, Nat.pow_mul]

/-- A challenge of the right length is a number below `2 ^ t`. -/
theorem challengeNumber_lt {t : Soundness} {challenge : Bytes}
    (h : challenge.length = t.byteLength) : challengeNumber challenge < 2 ^ t.bits := by
  calc challengeNumber challenge
      < 256 ^ t.byteLength := h ▸ Bytes.toNat_lt challenge
    _ = 2 ^ t.bits := t.pow_byteLength

/-- Different challenges are different numbers. -/
theorem challengeNumber_inj {t : Soundness} {e e' : Bytes} (he : e.length = t.byteLength)
    (he' : e'.length = t.byteLength) (h : challengeNumber e = challengeNumber e') : e = e' :=
  Bytes.toNat_inj (he.trans he'.symm) h

/-- Each number below `2 ^ t` is a challenge. -/
theorem exists_challenge {t : Soundness} {n : Nat} (h : n < 2 ^ t.bits) :
    ∃ e : Bytes, e.length = t.byteLength ∧ challengeNumber e = n := by
  rw [← t.pow_byteLength] at h
  refine ⟨(Bytes.ofNat n).padLeft t.byteLength, ?_, ?_⟩
  · exact Bytes.padLeft_length (Bytes.ofNat_length_le t.byteLength_pos h)
  · rw [challengeNumber, Bytes.toNat_padLeft, Bytes.toNat_ofNat]

/-! ## Exclusive or on strings of one length -/

namespace Bytes

/-- The string of `k` zero bytes. -/
def zeros (k : Nat) : Bytes := List.replicate k 0

@[simp] theorem zeros_length (k : Nat) : (zeros k).length = k := List.length_replicate

theorem xor_comm {a b : Bytes} (h : a.length = b.length) : a.xor b = b.xor a := by
  induction a generalizing b with
  | nil => rw [List.length_eq_zero_iff.mp h.symm]
  | cons x a ih =>
    obtain _ | ⟨y, b⟩ := b
    · simp at h
    rw [Bytes.xor, Bytes.xor, ih (by simpa using h), UInt8.xor_comm]

theorem xor_assoc {a b c : Bytes} (hab : a.length = b.length) (hbc : b.length = c.length) :
    (a.xor b).xor c = a.xor (b.xor c) := by
  induction a generalizing b c with
  | nil => simp [Bytes.xor]
  | cons x a ih =>
    obtain _ | ⟨y, b⟩ := b
    · simp at hab
    obtain _ | ⟨z, c⟩ := c
    · simp at hbc
    simp only [Bytes.xor]
    rw [ih (by simpa using hab) (by simpa using hbc), UInt8.xor_assoc]

theorem xor_left_comm {a b c : Bytes} (hab : a.length = b.length) (hbc : b.length = c.length) :
    a.xor (b.xor c) = b.xor (a.xor c) := by
  rw [← xor_assoc hab hbc, xor_comm hab, xor_assoc hab.symm (hab.trans hbc)]

theorem zeros_xor (a : Bytes) : (zeros a.length).xor a = a := by
  induction a with
  | nil => rfl
  | cons x a ih =>
    rw [List.length_cons, zeros, List.replicate_succ, Bytes.xor, UInt8.zero_xor]
    exact congrArg (x :: ·) ih

theorem xor_self (a : Bytes) : a.xor a = zeros a.length := by
  induction a with
  | nil => rfl
  | cons x a ih =>
    rw [Bytes.xor, ih, UInt8.xor_self]
    rfl

/-- Adding a string twice changes nothing. -/
theorem xor_xor_cancel {a b : Bytes} (h : a.length = b.length) : (a.xor b).xor b = a := by
  rw [xor_assoc h rfl, xor_self, ← h, xor_comm (by simp), zeros_xor]

/-! ## Sums of shares -/

/-- The sum of strings of `k` bytes. -/
def sum (k : Nat) (shares : List Bytes) : Bytes := shares.foldl Bytes.xor (zeros k)

theorem foldl_xor_length (acc : Bytes) (shares : List Bytes) :
    (shares.foldl Bytes.xor acc).length = acc.length := by
  induction shares generalizing acc with
  | nil => rfl
  | cons s shares ih => rw [List.foldl_cons, ih, xor_length]

@[simp] theorem sum_length (k : Nat) (shares : List Bytes) : (sum k shares).length = k := by
  rw [sum, foldl_xor_length, zeros_length]

/-- Adding up from `acc` is adding the sum to `acc`. -/
theorem foldl_xor {k : Nat} {acc : Bytes} {shares : List Bytes} (hacc : acc.length = k)
    (h : ∀ s ∈ shares, s.length = k) : shares.foldl Bytes.xor acc = acc.xor (sum k shares) := by
  induction shares generalizing acc with
  | nil => rw [sum, List.foldl_nil, List.foldl_nil, xor_comm (by simp [hacc]), ← hacc, zeros_xor]
  | cons s shares ih =>
    obtain ⟨hs, hrest⟩ := List.forall_mem_cons.mp h
    have hzs : (zeros k).xor s = s := by rw [← hs, zeros_xor]
    rw [sum, List.foldl_cons, List.foldl_cons, hzs, ih (by rw [xor_length, hacc]) hrest,
      ih hs hrest, xor_assoc (by rw [hacc, hs]) (by rw [hs, sum_length])]

theorem sum_cons {k : Nat} {s : Bytes} {shares : List Bytes} (hs : s.length = k)
    (h : ∀ s ∈ shares, s.length = k) : sum k (s :: shares) = s.xor (sum k shares) := by
  have hzs : (zeros k).xor s = s := by rw [← hs, zeros_xor]
  rw [sum, List.foldl_cons, hzs, foldl_xor hs h]

/-- A share may be added first. -/
theorem sum_middle {k : Nat} {s : Bytes} {before after : List Bytes} (hs : s.length = k)
    (hb : ∀ s ∈ before, s.length = k) (ha : ∀ s ∈ after, s.length = k) :
    sum k (before ++ s :: after) = s.xor (sum k (before ++ after)) := by
  induction before with
  | nil => exact sum_cons hs ha
  | cons b before ih =>
    obtain ⟨hb', hb⟩ := List.forall_mem_cons.mp hb
    have hall : ∀ x ∈ before ++ s :: after, x.length = k :=
      List.forall_mem_append.mpr ⟨hb, List.forall_mem_cons.mpr ⟨hs, ha⟩⟩
    have hsome : ∀ x ∈ before ++ after, x.length = k := List.forall_mem_append.mpr ⟨hb, ha⟩
    rw [List.cons_append, List.cons_append, sum_cons hb' hall, sum_cons hb' hsome, ih hb,
      xor_left_comm (by rw [hb', hs]) (by rw [hs, sum_length])]

/-- The other shares and the sum determine a share. -/
theorem eq_of_sum_set {k : Nat} {shares : List Bytes} (h : ∀ s ∈ shares, s.length = k) {i : Nat}
    (hi : i < shares.length) {s : Bytes} (hs : s.length = k)
    (hsum : sum k (shares.set i s) = sum k shares) : s = shares[i] := by
  obtain ⟨before, after, hshares, -, hset⟩ : ∃ before after, shares = before ++ shares[i] :: after ∧
      before.length = i ∧ shares.set i s = before ++ s :: after := List.exists_of_set hi
  generalize shares[i] = old at hshares ⊢
  rw [hset, hshares] at hsum
  rw [hshares, List.forall_mem_append, List.forall_mem_cons] at h
  obtain ⟨hb, hold, ha⟩ := h
  rw [sum_middle hs hb ha, sum_middle hold hb ha] at hsum
  calc s
      = (s.xor (sum k (before ++ after))).xor (sum k (before ++ after)) :=
        (xor_xor_cancel (by rw [hs, sum_length])).symm
    _ = (old.xor (sum k (before ++ after))).xor (sum k (before ++ after)) := by rw [hsum]
    _ = old := xor_xor_cancel (by rw [hold, sum_length])

end Bytes

/-! ## Sharing a challenge -/

/-- Whether the challenges of the branches of an OR composition add up to its own. -/
def Verifier.sharesAddUp (challenge : Bytes) (shares : List Bytes) : Bool :=
  shares.foldl Bytes.xor (List.replicate challenge.length 0) == challenge

/-- The challenges of the branches of an OR composition: the drawn ones, except that the first
is what is missing to the given challenge. -/
def Protocol.shareChallenge (challenge : Bytes) (drawn : List Bytes) : List Bytes :=
  drawn.set 0 ((drawn.drop 1).foldl Bytes.xor challenge)

theorem sharesAddUp_iff {challenge : Bytes} {shares : List Bytes} :
    Verifier.sharesAddUp challenge shares = true ↔ Bytes.sum challenge.length shares = challenge :=
  beq_iff_eq

/-- The share that is missing to a challenge, put among the others, makes them add up. -/
theorem sharesAddUp_middle {k : Nat} {challenge : Bytes} {before after : List Bytes}
    (hc : challenge.length = k) (hb : ∀ s ∈ before, s.length = k)
    (ha : ∀ s ∈ after, s.length = k) :
    Verifier.sharesAddUp challenge
      (before ++ (before ++ after).foldl Bytes.xor challenge :: after) = true := by
  have hall : ∀ x ∈ before ++ after, x.length = k := List.forall_mem_append.mpr ⟨hb, ha⟩
  have hown : ((before ++ after).foldl Bytes.xor challenge).length = k := by
    rw [Bytes.foldl_xor_length, hc]
  rw [sharesAddUp_iff, hc, Bytes.sum_middle hown hb ha, Bytes.foldl_xor hc hall,
    Bytes.xor_xor_cancel (by rw [hc, Bytes.sum_length])]

namespace Protocol

@[simp] theorem shareChallenge_length (challenge : Bytes) (drawn : List Bytes) :
    (shareChallenge challenge drawn).length = drawn.length := by
  cases drawn <;> rfl

/-- The challenges of a simulated OR composition have the length of the given one. -/
theorem forall_mem_shareChallenge {k : Nat} {challenge : Bytes} {drawn : List Bytes}
    (hc : challenge.length = k) (hd : ∀ s ∈ drawn, s.length = k) :
    ∀ s ∈ shareChallenge challenge drawn, s.length = k := by
  cases drawn with
  | nil => simp [shareChallenge]
  | cons s others =>
    refine List.forall_mem_cons.mpr ⟨?_, (List.forall_mem_cons.mp hd).2⟩
    rw [Bytes.foldl_xor_length, hc]

/-- The challenges of a simulated OR composition add up to the given one. -/
theorem sharesAddUp_shareChallenge {k : Nat} {challenge : Bytes} {drawn : List Bytes}
    (hc : challenge.length = k) (hd : ∀ s ∈ drawn, s.length = k) (hne : drawn ≠ []) :
    Verifier.sharesAddUp challenge (shareChallenge challenge drawn) = true := by
  obtain _ | ⟨s, others⟩ := drawn
  · exact absurd rfl hne
  · have hbefore : ∀ s ∈ ([] : List Bytes), s.length = k := by simp
    exact sharesAddUp_middle hc hbefore (List.forall_mem_cons.mp hd).2

end Protocol

end SigmaProofs
