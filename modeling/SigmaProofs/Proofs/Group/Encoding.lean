import Mathlib.Data.Set.Function
import SigmaProofs.Proofs.Group.Schnorr

/-!
# Encodings of the elements of Schnorr groups

An encoding is as wide as the modulus. Zeros in front make shorter numbers as wide, and the number
of a byte string can be read back whatever its width is. So the encoding of a member is the only
string of that width with its number.

* `SchnorrGroup.elementLength_eq`: the width is the number of bytes of `p`, also where the bits of
  `p` fill its bytes.
* `SchnorrGroup.decode?_eq_some_iff`: what is decoded was encoded.
* `SchnorrGroup.encode_injective`: numbers that are no members have an encoding of their own too.
* `SchnorrGroup.encodesOneToOne`: encoding is a bijection between members and the strings that are
  decoded.
-/

namespace SigmaProofs

/-- The encodings of members are the strings that are decoded, each to its own member. -/
structure PrimeGroup.EncodesOneToOne {E : Type} (G : PrimeGroup E) (length : Nat) : Prop where
  decode_eq_some_iff {bs : Bytes} {a : E} :
    G.decode? bs = some a ↔ G.isMember a = true ∧ bs = G.encode a
  bijOn : Set.BijOn G.encode {a | G.isMember a = true} {bs | (G.decode? bs).isSome = true}
  encode_length {a : E} (ha : G.isMember a = true) : (G.encode a).length = length
  /-- Values of the type that do not belong to the group are told apart as well. -/
  encode_injective : Function.Injective G.encode

namespace SchnorrGroup

variable {S : SchnorrGroup}

/-- An encoding has as many bytes as the modulus. -/
theorem elementLength_eq (hp : S.p ≠ 0) : S.elementLength = (Bytes.ofNat S.p).length := by
  have hpos : 0 < S.elementLength := by
    unfold elementLength bitLength
    split <;> omega
  have hle : (Bytes.ofNat S.p).length ≤ S.elementLength :=
    Bytes.ofNat_length_le hpos (lt_pow_bytes S.p)
  have hbits : bitLength S.p ≤ 8 * (Bytes.ofNat S.p).length := by
    refine bitLength_le_of_lt ?_
    calc S.p = (Bytes.ofNat S.p).toNat := (Bytes.toNat_ofNat S.p).symm
      _ < 256 ^ (Bytes.ofNat S.p).length := Bytes.toNat_lt _
      _ = 2 ^ (8 * (Bytes.ofNat S.p).length) := by rw [Nat.pow_mul]
  unfold elementLength at hle ⊢
  omega

/-- Natural numbers have different encodings, whether they are members or not. -/
theorem encode_injective (S : SchnorrGroup) : Function.Injective S.encode := by
  intro a b h
  simpa using congrArg Bytes.toNat h

/-- A string is decoded if and only if it is the encoding of a member. -/
theorem decode?_eq_some_iff {bs : Bytes} {a : Nat} :
    S.decode? bs = some a ↔ S.isMember a = true ∧ bs = S.encode a := by
  constructor
  · intro h
    have ha := isMember_of_decode? h
    unfold decode? at h
    split at h
    · rename_i hbs
      obtain rfl := Option.some.inj h
      simp only [Bool.and_eq_true, decide_eq_true_eq] at hbs
      refine ⟨ha, Bytes.toNat_inj ?_ (toNat_encode bs.toNat).symm⟩
      rw [encode_length ha, hbs.1]
    · cases h
  · rintro ⟨ha, rfl⟩
    exact decode?_encode ha

/-- Members are encoded one to one in as many bytes as the modulus has, and nothing else is decoded.
This holds of all parameters, whether they are accepted or not. -/
theorem encodesOneToOne (S : SchnorrGroup) :
    S.toPrimeGroup.EncodesOneToOne (Bytes.ofNat S.p).length where
  decode_eq_some_iff := decode?_eq_some_iff
  bijOn := by
    refine ⟨fun a ha => ?_, S.encode_injective.injOn, fun bs hbs => ?_⟩
    · exact Option.isSome_iff_exists.mpr ⟨a, decode?_encode ha⟩
    · obtain ⟨a, ha⟩ := Option.isSome_iff_exists.mp hbs
      obtain ⟨hmem, rfl⟩ := decode?_eq_some_iff.mp ha
      exact ⟨a, hmem, rfl⟩
  encode_length {a} ha := by
    have hp : S.p ≠ 0 := by
      rintro h
      simp [toPrimeGroup, isMember, h] at ha
    rw [← elementLength_eq hp]
    exact encode_length ha
  encode_injective := S.encode_injective

/-- The members 1 and 65536 of the group of order 2 modulo 65537, whose bits begin a third byte. -/
example : let S : SchnorrGroup := ⟨65537, 2, 65536⟩
    [[0, 0, 1], [1, 0, 0], [1], [0, 0, 0, 1], [0, 0, 2], [1, 0, 1]].map S.decode? =
      [some 1, some 65536, none, none, none, none] := by
  decide +kernel

end SchnorrGroup

end SigmaProofs
