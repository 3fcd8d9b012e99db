import Mathlib.Tactic.LinearCombination
import SigmaProofs.Leaf.Opening
import SigmaProofs.Proofs.Group.Lawful
import SigmaProofs.Proofs.Steps

/-!
# Proofs about exponents in a group of prime order

The equation `base ^ z = commitment * power ^ e` of `PrimeGroup.fits` is one between members
(`fits_iff`). So the response of a prover solves it (`fits_response`), the commitment of a simulator
does (`fits_fitting`), and two responses to one commitment give the exponent
(`eq_pow_of_isQuotient`).

* `Dlog.accepts_commit`, `DhTuple.accepts_commit`, `DhExtended.accepts_commit`,
  `Opening.accepts_commit`: the messages of a prover with a witness are accepted.
* `Dlog.accepts_simulate` and so on: so are those of a simulator.
* `Dlog.eq_pow_of_isQuotient` and so on: the quotient of the differences of two responses and two
  challenges (`IsQuotient`) is a witness. There is such a number (`isQuotient_extractedExponent`).
-/

namespace SigmaProofs

variable {E : Type} {G : PrimeGroup E}

namespace PrimeGroup

variable [G.Lawful]

theorem powGenerator_mem (n : Nat) : G.isMember (G.powGenerator n) = true :=
  Lawful.pow_mem n Lawful.generator_mem

theorem doublePow_mem {a b : E} (ha : G.isMember a = true) (hb : G.isMember b = true)
    (x y : Nat) : G.isMember (G.doublePow a x b y) = true :=
  Lawful.mul_mem (Lawful.pow_mem x ha) (Lawful.pow_mem y hb)

/-! ## Responses and simulated commitments in the group of members -/

namespace Member

theorem pow_exponentResponse (a : G.Member) (r e w : Nat) :
    a ^ exponentResponse G.order r e w = a ^ r * (a ^ w) ^ e := by
  rw [exponentResponse, pow_mod_order, pow_add, Nat.mul_comm, pow_mul]

theorem pow_openingResponse (h g : G.Member) (alpha beta e x r : Nat) :
    h ^ exponentResponse G.order alpha e x * g ^ exponentResponse G.order beta e r =
      h ^ alpha * g ^ beta * (g ^ r * h ^ x) ^ e := by
  rw [pow_exponentResponse, pow_exponentResponse, mul_pow, mul_comm ((g ^ r) ^ e),
    mul_mul_mul_comm]

theorem mul_pow_negMod_mul (a b : G.Member) (e : Nat) :
    a * b ^ negMod G.order e * b ^ e = a := by
  rw [pow_negMod, inv_mul_cancel_right]

end Member

/-! ## The equation for one base -/

section Fits

variable [DecidableEq E]

omit [G.Lawful] in
theorem fits_iff {base power commitment : E} {e z : Nat} :
    G.fits base power commitment e z = true ↔
      G.pow base z = G.mul commitment (G.pow power e) :=
  decide_eq_true_iff

theorem fits_response {base : E} (hb : G.isMember base = true) (r e w : Nat) :
    G.fits base (G.pow base w) (G.pow base r) e (exponentResponse G.order r e w) = true :=
  fits_iff.mpr (congrArg PrimeGroup.Member.val (Member.pow_exponentResponse ⟨base, hb⟩ r e w))

theorem fits_fitting {base power : E} (hb : G.isMember base = true)
    (hp : G.isMember power = true) (e z : Nat) :
    G.fits base power (G.doublePow base z power (negMod G.order e)) e z = true := by
  have h := Member.mul_pow_negMod_mul (⟨base, hb⟩ ^ z) ⟨power, hp⟩ e
  exact fits_iff.mpr (congrArg PrimeGroup.Member.val h.symm)

end Fits

end PrimeGroup

/-! ## Two responses to one commitment -/

/-- `w` is the quotient of the differences of two responses and of two challenges, modulo `q`. -/
def IsQuotient (q e e' z z' w : Nat) : Prop :=
  (w : ZMod q) * ((e : ZMod q) - e') = (z : ZMod q) - z'

/-- The quotient of the differences of two responses and two challenges. -/
def extractedExponent (order e e' z z' : Nat) : Nat :=
  (z + negMod order z') * (inverseMod? (e + negMod order e') order).getD 0

theorem isQuotient_extractedExponent {q e e' : Nat} (hq : q.Prime) (he : e < q) (he' : e' < q)
    (hne : e ≠ e') (z z' : Nat) : IsQuotient q e e' z z' (extractedExponent q e e' z z') := by
  have hinv := cast_mul_inverse (mul_inverse_difference hq he he' hne)
  rw [Nat.cast_add, cast_negMod hq.pos] at hinv
  rw [IsQuotient, extractedExponent, Nat.cast_mul, Nat.cast_add, cast_negMod hq.pos]
  linear_combination ((z : ZMod q) - z') * hinv

namespace PrimeGroup

variable [G.Lawful]

namespace Member

/-- Two equations with one commitment, divided by each other. -/
theorem pow_difference {a a' b c : G.Member} {e e' : Nat} (h : a = c * b ^ e)
    (h' : a' = c * b ^ e') : b ^ (e + negMod G.order e') = a * a'⁻¹ := by
  rw [pow_add, pow_negMod, h, h', mul_inv_rev, mul_comm c (b ^ e), mul_assoc, mul_comm _ c⁻¹,
    mul_inv_cancel_left]

theorem pow_of_isQuotient (a : G.Member) {e e' z z' w : Nat}
    (hw : IsQuotient G.order e e' z z' w) :
    (a ^ w) ^ (e + negMod G.order e') = a ^ z * (a ^ z')⁻¹ := by
  have hpos := Lawful.order_prime (G := G).pos
  rw [← pow_negMod, ← pow_add, ← pow_mul]
  refine a.pow_eq_of_cast_eq ?_
  rw [Nat.cast_mul, Nat.cast_add, Nat.cast_add, cast_negMod hpos, cast_negMod hpos,
    ← sub_eq_add_neg, ← sub_eq_add_neg]
  exact hw

/-- Members are equal if their powers with a difference of challenges are. -/
theorem eq_of_pow_difference_eq {a b : G.Member} {e e' : Nat} (he : e < G.order)
    (he' : e' < G.order) (hne : e ≠ e')
    (h : a ^ (e + negMod G.order e') = b ^ (e + negMod G.order e')) : a = b := by
  have hinv := mul_inverse_difference Lawful.order_prime he he' hne
  -- the difference has an inverse modulo the order, which undoes the power
  have hpow : ∀ x : G.Member, (x ^ (e + negMod G.order e')) ^
      (inverseMod? (e + negMod G.order e') G.order).getD 0 = x := fun x => by
    rw [← pow_mul, ← x.pow_mod_order, hinv, x.pow_mod_order, pow_one]
  rw [← hpow a, h, hpow b]

theorem eq_pow_of_isQuotient {a b c : G.Member} {e e' z z' w : Nat} (he : e < G.order)
    (he' : e' < G.order) (hne : e ≠ e') (hw : IsQuotient G.order e e' z z' w)
    (h : a ^ z = c * b ^ e) (h' : a ^ z' = c * b ^ e') : b = a ^ w := by
  refine eq_of_pow_difference_eq he he' hne ?_
  rw [pow_difference h h', a.pow_of_isQuotient hw]

/-- The same for a product of powers. -/
theorem eq_mul_of_isQuotient {a b c g : G.Member} {e e' u u' v v' x r : Nat} (he : e < G.order)
    (he' : e' < G.order) (hne : e ≠ e') (hx : IsQuotient G.order e e' u u' x)
    (hr : IsQuotient G.order e e' v v' r) (h : a ^ u * g ^ v = c * b ^ e)
    (h' : a ^ u' * g ^ v' = c * b ^ e') : b = g ^ r * a ^ x := by
  refine eq_of_pow_difference_eq he he' hne ?_
  rw [pow_difference h h', mul_pow, a.pow_of_isQuotient hx, g.pow_of_isQuotient hr, mul_inv,
    mul_comm (g ^ v * _), mul_mul_mul_comm]

end Member

/-- Two responses to one commitment give the exponent of the power. -/
theorem eq_pow_of_isQuotient [DecidableEq E] {base power commitment : E} {e e' z z' w : Nat}
    (hb : G.isMember base = true) (hp : G.isMember power = true)
    (hc : G.isMember commitment = true) (he : e < G.order) (he' : e' < G.order) (hne : e ≠ e')
    (hw : IsQuotient G.order e e' z z' w) (h : G.fits base power commitment e z = true)
    (h' : G.fits base power commitment e' z' = true) : power = G.pow base w := by
  have hm : (⟨base, hb⟩ : G.Member) ^ z = ⟨commitment, hc⟩ * ⟨power, hp⟩ ^ e :=
    Member.ext (fits_iff.mp h)
  have hm' : (⟨base, hb⟩ : G.Member) ^ z' = ⟨commitment, hc⟩ * ⟨power, hp⟩ ^ e' :=
    Member.ext (fits_iff.mp h')
  exact congrArg PrimeGroup.Member.val (Member.eq_pow_of_isQuotient he he' hne hw hm hm')

end PrimeGroup

/-! ## The protocols -/

variable [DecidableEq E]

namespace Dlog

theorem accepts_iff {h : E} {e z : Nat} {a : Bytes} :
    accepts G h e a z = true ↔ ∃ c, G.decode? a = some c ∧ G.isMember h = true ∧
      G.fits G.generator h c e z = true := by
  unfold accepts
  split <;> simp_all

variable [G.Lawful]

theorem accepts_commit (r e w : Nat) :
    accepts G (G.powGenerator w) e (G.encode (G.powGenerator r))
      (exponentResponse G.order r e w) = true :=
  accepts_iff.mpr ⟨_, PrimeGroup.Lawful.decode_encode (PrimeGroup.powGenerator_mem r),
    PrimeGroup.powGenerator_mem w, PrimeGroup.fits_response PrimeGroup.Lawful.generator_mem r e w⟩

theorem accepts_simulate {h : E} (hh : G.isMember h = true) (e z : Nat) :
    accepts G h e (G.fitting G.generator h e z) z = true := by
  have hg : G.isMember G.generator = true := PrimeGroup.Lawful.generator_mem
  exact accepts_iff.mpr
    ⟨_, PrimeGroup.Lawful.decode_encode (PrimeGroup.doublePow_mem hg hh z (negMod G.order e)), hh,
      PrimeGroup.fits_fitting hg hh e z⟩

/-- Two responses to one commitment give the discrete logarithm. -/
theorem eq_pow_of_isQuotient {h : E} {e e' z z' w : Nat} {a : Bytes} (he : e < G.order)
    (he' : e' < G.order) (hne : e ≠ e') (hw : IsQuotient G.order e e' z z' w)
    (hacc : accepts G h e a z = true) (hacc' : accepts G h e' a z' = true) :
    h = G.powGenerator w := by
  obtain ⟨c, hc, hh, hfits⟩ := accepts_iff.mp hacc
  obtain ⟨c', hc', -, hfits'⟩ := accepts_iff.mp hacc'
  obtain rfl : c = c' := Option.some.inj (hc.symm.trans hc')
  exact PrimeGroup.eq_pow_of_isQuotient PrimeGroup.Lawful.generator_mem hh
    (PrimeGroup.Lawful.isMember_of_decode hc) he he' hne hw hfits hfits'

end Dlog

namespace DhTuple

theorem accepts_iff {h u v : E} {e z : Nat} {a b : Bytes} :
    accepts G h u v e a b z = true ↔ ∃ c d, G.decode? a = some c ∧ G.decode? b = some d ∧
      G.isMember h = true ∧ G.isMember u = true ∧ G.isMember v = true ∧
      G.fits G.generator u c e z = true ∧ G.fits h v d e z = true := by
  unfold accepts
  split
  · simp_all [and_assoc]
  · rename_i hnone
    simp only [Bool.false_eq_true, false_iff, not_exists, not_and]
    intro c d hc hd
    exact absurd hd (hnone c d hc)

variable [G.Lawful]

theorem accepts_commit {h : E} (hh : G.isMember h = true) (r e w : Nat) :
    accepts G h (G.powGenerator w) (G.pow h w) e (G.encode (G.powGenerator r))
      (G.encode (G.pow h r)) (exponentResponse G.order r e w) = true :=
  accepts_iff.mpr ⟨_, _, PrimeGroup.Lawful.decode_encode (PrimeGroup.powGenerator_mem r),
    PrimeGroup.Lawful.decode_encode (PrimeGroup.Lawful.pow_mem r hh), hh,
    PrimeGroup.powGenerator_mem w, PrimeGroup.Lawful.pow_mem w hh,
    PrimeGroup.fits_response PrimeGroup.Lawful.generator_mem r e w,
    PrimeGroup.fits_response hh r e w⟩

theorem accepts_simulate {h u v : E} (hh : G.isMember h = true) (hu : G.isMember u = true)
    (hv : G.isMember v = true) (e z : Nat) :
    accepts G h u v e (G.fitting G.generator u e z) (G.fitting h v e z) z = true := by
  have hg : G.isMember G.generator = true := PrimeGroup.Lawful.generator_mem
  exact accepts_iff.mpr ⟨_, _,
    PrimeGroup.Lawful.decode_encode (PrimeGroup.doublePow_mem hg hu z (negMod G.order e)),
    PrimeGroup.Lawful.decode_encode (PrimeGroup.doublePow_mem hh hv z (negMod G.order e)),
    hh, hu, hv, PrimeGroup.fits_fitting hg hu e z, PrimeGroup.fits_fitting hh hv e z⟩

/-- Two responses to one commitment give the common exponent. -/
theorem eq_pow_of_isQuotient {h u v : E} {e e' z z' w : Nat} {a b : Bytes} (he : e < G.order)
    (he' : e' < G.order) (hne : e ≠ e') (hw : IsQuotient G.order e e' z z' w)
    (hacc : accepts G h u v e a b z = true) (hacc' : accepts G h u v e' a b z' = true) :
    u = G.powGenerator w ∧ v = G.pow h w := by
  obtain ⟨c, d, hc, hd, hh, hu, hv, hfits, hfitsh⟩ := accepts_iff.mp hacc
  obtain ⟨c', d', hc', hd', -, -, -, hfits', hfitsh'⟩ := accepts_iff.mp hacc'
  obtain rfl : c = c' := Option.some.inj (hc.symm.trans hc')
  obtain rfl : d = d' := Option.some.inj (hd.symm.trans hd')
  constructor
  · exact PrimeGroup.eq_pow_of_isQuotient PrimeGroup.Lawful.generator_mem hu
      (PrimeGroup.Lawful.isMember_of_decode hc) he he' hne hw hfits hfits'
  · exact PrimeGroup.eq_pow_of_isQuotient hh hv (PrimeGroup.Lawful.isMember_of_decode hd) he he'
      hne hw hfitsh hfitsh'

end DhTuple

namespace DhExtended

theorem accepts_element {base power : E} {bases powers : List E} {e z : Nat} {a : Bytes}
    {commitments : List Message} :
    accepts G e z (base :: bases) (power :: powers) (.element a :: commitments) = .ok true ↔
      (∃ c, G.decode? a = some c ∧ G.isMember base = true ∧ G.isMember power = true ∧
        G.fits base power c e z = true) ∧ accepts G e z bases powers commitments = .ok true := by
  rw [accepts, Message.expectElement, ok_bind]
  cases hc : G.decode? a with
  | none => simp [pure, Except.pure]
  | some c =>
    cases ho : accepts G e z bases powers commitments with
    | error err => simp
    | ok others => simp [pure, Except.pure, and_assoc]

theorem accepts_cons {base power : E} {bases powers : List E} {e z : Nat} {commitment : Message}
    {commitments : List Message} :
    accepts G e z (base :: bases) (power :: powers) (commitment :: commitments) = .ok true ↔
      (∃ a c, commitment = .element a ∧ G.decode? a = some c ∧ G.isMember base = true ∧
        G.isMember power = true ∧ G.fits base power c e z = true) ∧
      accepts G e z bases powers commitments = .ok true := by
  constructor
  · intro h
    obtain ⟨a, ha, -⟩ := bind_eq_ok.mp h
    obtain rfl := Message.expectElement_eq_ok.mp ha
    obtain ⟨⟨c, hc⟩, hothers⟩ := accepts_element.mp h
    exact ⟨⟨a, c, rfl, hc⟩, hothers⟩
  · rintro ⟨⟨a, c, rfl, hc⟩, hothers⟩
    exact accepts_element.mpr ⟨⟨c, hc⟩, hothers⟩

/-- All commitments are elements. -/
theorem decodable_of_accepts {bases powers : List E} {e z : Nat} {commitments : List Message}
    (hlen : bases.length = powers.length) (hcount : commitments.length = bases.length)
    (h : accepts G e z bases powers commitments = .ok true) :
    ∀ m ∈ commitments, ∃ a c, m = .element a ∧ G.decode? a = some c := by
  induction bases generalizing powers commitments with
  | nil =>
    obtain rfl := List.length_eq_zero_iff.mp hcount
    simp
  | cons base bases ih =>
    obtain _ | ⟨power, powers⟩ := powers
    · simp at hlen
    obtain _ | ⟨commitment, commitments⟩ := commitments
    · simp at hcount
    obtain ⟨⟨a, c, hcommitment, hdecode, -⟩, hothers⟩ := accepts_cons.mp h
    exact List.forall_mem_cons.mpr ⟨⟨a, c, hcommitment, hdecode⟩,
      ih (by simpa using hlen) (by simpa using hcount) hothers⟩

/-- All bases and powers are members. -/
theorem forall_mem_of_accepts {bases powers : List E} {e z : Nat} {commitments : List Message}
    (hlen : bases.length = powers.length) (hcount : commitments.length = bases.length)
    (h : accepts G e z bases powers commitments = .ok true) :
    (∀ b ∈ bases, G.isMember b = true) ∧ ∀ p ∈ powers, G.isMember p = true := by
  induction bases generalizing powers commitments with
  | nil =>
    obtain rfl := List.length_eq_zero_iff.mp hlen.symm
    simp
  | cons base bases ih =>
    obtain _ | ⟨power, powers⟩ := powers
    · simp at hlen
    obtain _ | ⟨commitment, commitments⟩ := commitments
    · simp at hcount
    obtain ⟨⟨-, -, -, -, hbase, hpower, -⟩, hothers⟩ := accepts_cons.mp h
    obtain ⟨hbases, hpowers⟩ := ih (by simpa using hlen) (by simpa using hcount) hothers
    exact ⟨List.forall_mem_cons.mpr ⟨hbase, hbases⟩, List.forall_mem_cons.mpr ⟨hpower, hpowers⟩⟩

variable [G.Lawful]

theorem accepts_commit {bases : List E} (hb : ∀ b ∈ bases, G.isMember b = true) (r e w : Nat) :
    accepts G e (exponentResponse G.order r e w) bases (bases.map (G.pow · w))
      (bases.map fun base => .element (G.encode (G.pow base r))) = .ok true := by
  induction bases with
  | nil => rfl
  | cons base bases ih =>
    obtain ⟨hbase, hrest⟩ := List.forall_mem_cons.mp hb
    have hmem := PrimeGroup.Lawful.pow_mem r hbase
    exact accepts_element.mpr ⟨⟨_, PrimeGroup.Lawful.decode_encode hmem, hbase,
      PrimeGroup.Lawful.pow_mem w hbase, PrimeGroup.fits_response hbase r e w⟩, ih hrest⟩

theorem accepts_simulate {bases powers : List E} (hb : ∀ b ∈ bases, G.isMember b = true)
    (hp : ∀ p ∈ powers, G.isMember p = true) (hlen : bases.length = powers.length) (e z : Nat) :
    accepts G e z bases powers (bases.zipWith
      (fun base power => .element (G.fitting base power e z)) powers) = .ok true := by
  induction bases generalizing powers with
  | nil => rfl
  | cons base bases ih =>
    obtain _ | ⟨power, powers⟩ := powers
    · simp at hlen
    obtain ⟨hbase, hbases⟩ := List.forall_mem_cons.mp hb
    obtain ⟨hpower, hpowers⟩ := List.forall_mem_cons.mp hp
    have hmem := PrimeGroup.doublePow_mem hbase hpower z (negMod G.order e)
    exact accepts_element.mpr ⟨⟨_, PrimeGroup.Lawful.decode_encode hmem, hbase, hpower,
      PrimeGroup.fits_fitting hbase hpower e z⟩, ih hbases hpowers (by simpa using hlen)⟩

/-- Two responses to one list of commitments give the common exponent. -/
theorem eq_map_of_isQuotient {bases powers : List E} {e e' z z' w : Nat}
    {commitments : List Message} (hlen : bases.length = powers.length)
    (hcount : commitments.length = bases.length) (he : e < G.order) (he' : e' < G.order)
    (hne : e ≠ e') (hw : IsQuotient G.order e e' z z' w)
    (hacc : accepts G e z bases powers commitments = .ok true)
    (hacc' : accepts G e' z' bases powers commitments = .ok true) :
    powers = bases.map (G.pow · w) := by
  induction bases generalizing powers commitments with
  | nil => exact List.length_eq_zero_iff.mp hlen.symm
  | cons base bases ih =>
    obtain _ | ⟨power, powers⟩ := powers
    · simp at hlen
    obtain _ | ⟨commitment, commitments⟩ := commitments
    · simp at hcount
    obtain ⟨⟨a, c, rfl, hc, hbase, hpower, hfits⟩, hothers⟩ := accepts_cons.mp hacc
    obtain ⟨⟨a', c', ha, hc', -, -, hfits'⟩, hothers'⟩ := accepts_cons.mp hacc'
    obtain rfl := Message.element.inj ha
    obtain rfl : c = c' := Option.some.inj (hc.symm.trans hc')
    have hhead := PrimeGroup.eq_pow_of_isQuotient hbase hpower
      (PrimeGroup.Lawful.isMember_of_decode hc) he he' hne hw hfits hfits'
    have htail := ih (by simpa using hlen) (by simpa using hcount) hothers hothers'
    rw [List.map_cons, ← hhead, ← htail]

end DhExtended

namespace Opening

theorem accepts_iff {h c : E} {e u v : Nat} {a : Bytes} :
    accepts G h c e a u v = true ↔ ∃ d, G.decode? a = some d ∧ G.isMember h = true ∧
      G.isMember c = true ∧ G.doublePow h u G.generator v = G.mul d (G.pow c e) := by
  unfold accepts
  split <;> simp_all [and_assoc]

variable [G.Lawful]

theorem accepts_commit {h : E} (hh : G.isMember h = true) (alpha beta e x r : Nat) :
    accepts G h (G.doublePow G.generator r h x) e
      (G.encode (G.doublePow h alpha G.generator beta)) (exponentResponse G.order alpha e x)
      (exponentResponse G.order beta e r) = true := by
  have hg : G.isMember G.generator = true := PrimeGroup.Lawful.generator_mem
  refine accepts_iff.mpr ⟨_, PrimeGroup.Lawful.decode_encode
    (PrimeGroup.doublePow_mem hh hg alpha beta), hh, PrimeGroup.doublePow_mem hg hh r x, ?_⟩
  exact congrArg PrimeGroup.Member.val
    (PrimeGroup.Member.pow_openingResponse ⟨h, hh⟩ (.generator G) alpha beta e x r)

theorem accepts_simulate {h c : E} (hh : G.isMember h = true) (hc : G.isMember c = true)
    (e u v : Nat) :
    accepts G h c e (G.encode (G.mul (G.doublePow h u G.generator v)
      (G.pow c (negMod G.order e)))) u v = true := by
  have hg : G.isMember G.generator = true := PrimeGroup.Lawful.generator_mem
  have hmem := PrimeGroup.Lawful.mul_mem (PrimeGroup.doublePow_mem hh hg u v)
    (PrimeGroup.Lawful.pow_mem (negMod G.order e) hc)
  refine accepts_iff.mpr ⟨_, PrimeGroup.Lawful.decode_encode hmem, hh, hc, ?_⟩
  have hm := PrimeGroup.Member.mul_pow_negMod_mul
    ((⟨h, hh⟩ : G.Member) ^ u * .generator G ^ v) ⟨c, hc⟩ e
  exact congrArg PrimeGroup.Member.val hm.symm

/-- Two responses to one commitment give the opening. -/
theorem eq_commit_of_isQuotient {h c : E} {e e' u u' v v' x r : Nat} {a : Bytes}
    (he : e < G.order) (he' : e' < G.order) (hne : e ≠ e')
    (hx : IsQuotient G.order e e' u u' x) (hr : IsQuotient G.order e e' v v' r)
    (hacc : accepts G h c e a u v = true) (hacc' : accepts G h c e' a u' v' = true) :
    c = G.doublePow G.generator r h x := by
  obtain ⟨d, hd, hh, hc, heq⟩ := accepts_iff.mp hacc
  obtain ⟨d', hd', -, -, heq'⟩ := accepts_iff.mp hacc'
  obtain rfl : d = d' := Option.some.inj (hd.symm.trans hd')
  have hdm := PrimeGroup.Lawful.isMember_of_decode hd
  have hm : (⟨h, hh⟩ : G.Member) ^ u * .generator G ^ v = ⟨d, hdm⟩ * ⟨c, hc⟩ ^ e :=
    PrimeGroup.Member.ext heq
  have hm' : (⟨h, hh⟩ : G.Member) ^ u' * .generator G ^ v' = ⟨d, hdm⟩ * ⟨c, hc⟩ ^ e' :=
    PrimeGroup.Member.ext heq'
  exact congrArg PrimeGroup.Member.val
    (PrimeGroup.Member.eq_mul_of_isQuotient he he' hne hx hr hm hm')

end Opening

end SigmaProofs
