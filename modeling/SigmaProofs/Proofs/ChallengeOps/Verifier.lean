import SigmaProofs.Proofs.ChallengeOps
import SigmaProofs.Proofs.Construction

/-!
# Verifiers and the lengths of challenges

A composition sets the challenges of its branches, and an OR composition adds them up. They come
from whoever sends the second message.

* `Verifier.verify_eq`, `Verifier.run_agreesWith`: if a verifier has one soundness parameter and its
  challenge fits, all operations that are exact on challenges give the same verdicts and the same
  runs, whatever the messages are. In particular, no branch refuses the challenge that it is given:
  what would happen then is a part of the operations (`Verifier.verifyEach_refused`).
-/

namespace SigmaProofs.Verifier

variable {E : Type} [DecidableEq E] {t : Soundness} {ops : ChallengeOps}

/-! ## Verdicts -/

/-- Challenges of the right length are taken by branches with the parameter `t`. -/
theorem verifyEach_congr {vs : List (Verifier E)} {cs : List Bytes} {ss : List (Statement E)}
    {fs zs : List Message} (ht : ∀ v ∈ vs, v.soundness = t)
    (hcs : ∀ c ∈ cs, c.length = t.byteLength)
    (h : ∀ v ∈ vs, ∀ c : Bytes, c.length = t.byteLength → ∀ s f z,
      (v.put c).verify s f z ops = (v.put c).verify s f z) :
    verifyEach vs cs ss fs zs ops = verifyEach vs cs ss fs zs := by
  induction vs, cs, ss, fs, zs using each_induct with
  | ends vs cs ss fs zs hends => rw [verifyEach_ends hends, verifyEach_ends hends]
  | next v vs c cs s ss f fs z zs ih =>
    obtain ⟨hv, hvs⟩ := List.forall_mem_cons.mp ht
    obtain ⟨hc, hcs⟩ := List.forall_mem_cons.mp hcs
    obtain ⟨hverify, hothers⟩ := List.forall_mem_cons.mp h
    have htake : c.length = v.soundness.byteLength := hv ▸ hc
    rw [verifyEach_put htake, verifyEach_put htake, hverify c hc, ih hvs hcs hothers]

/-- A branch of a composition, from the induction: it gets a challenge of the right length. -/
theorem verify_put_eq {v : Verifier E} (hv : v.protocol.Uniform t)
    (h : ∀ slot, (v.withSlot slot).protocol.Uniform t →
      (∀ c, (v.withSlot slot).challenge = some c → c.length = t.byteLength) → ∀ s f z,
        (v.withSlot slot).verify s f z ops = (v.withSlot slot).verify s f z)
    {c : Bytes} (hc : c.length = t.byteLength) (s : Statement E) (f z : Message) :
    (v.put c).verify s f z ops = (v.put c).verify s f z := by
  refine h _ ((protocol_put v c).symm ▸ hv) (fun c' hc' => ?_) s f z
  obtain rfl : c = c' := Option.some.inj ((challenge_put v c).symm.trans hc')
  exact hc

/-- The challenge of a composition has the length that the parameter of its branches asks for, and
messages with challenges of another length are turned down before anything is added up. -/
theorem verify_eq {v : Verifier E} (hv : v.protocol.Uniform t) (hops : ops.ExactOn t)
    (hc : ∀ c, v.challenge = some c → c.length = t.byteLength) (s : Statement E)
    (first second : Message) : v.verify s first second ops = v.verify s first second := by
  induction v generalizing s first second with
  | leaf slot l => simp only [verify]
  | adapted conversion v ih =>
    obtain _ | ⟨_, hv⟩ := hv
    simp only [verify]
    cases conversion.apply s with
    | error err => rfl
    | ok s => simp only [ih hv hc s first second]
  | all slot bs ih =>
    obtain _ | _ | ⟨_, hbs⟩ := hv
    have huniform := forall_mem_protocols.mp hbs
    have ht (b : Verifier E) (hb : b ∈ bs) : b.soundness = slot.soundness :=
      b.soundness_protocol ▸ (huniform b hb).soundness_eq
    have hput (b : Verifier E) (hb : b ∈ bs) (c : Bytes) (hc : c.length = slot.soundness.byteLength) :=
      verify_put_eq (huniform b hb) (ih b hb) hc
    simp only [verify]
    cases hslot : slot.challenge with
    | none => rfl
    | some c =>
    cases asProtocolError s.expectAll with
    | error err => rfl
    | ok ss =>
    simp only [ok_bind]
    cases asProtocolError (checkArity bs.length ss.length) with
    | error err => rfl
    | ok =>
    cases messagesOfAll bs.length first second with
    | error err => rfl
    | ok messages =>
    obtain _ | ⟨firsts, seconds⟩ := messages
    · rfl
    · have hcs : ∀ x ∈ List.replicate ss.length c, x.length = slot.soundness.byteLength :=
        fun x hx => List.eq_of_mem_replicate hx ▸ hc c hslot
      simp only [ok_bind, pure_eq_ok, verifyEach_congr ht hcs hput]
  | any slot bs ih =>
    obtain _ | _ | _ | ⟨_, hbs⟩ := hv
    have huniform := forall_mem_protocols.mp hbs
    have ht (b : Verifier E) (hb : b ∈ bs) : b.soundness = slot.soundness :=
      b.soundness_protocol ▸ (huniform b hb).soundness_eq
    have hput (b : Verifier E) (hb : b ∈ bs) (c : Bytes) (hc : c.length = slot.soundness.byteLength) :=
      verify_put_eq (huniform b hb) (ih b hb) hc
    simp only [verify]
    cases hslot : slot.challenge with
    | none => rfl
    | some c =>
    cases asProtocolError s.expectAny with
    | error err => rfl
    | ok ss =>
    simp only [ok_bind]
    cases asProtocolError (checkArity bs.length ss.length) with
    | error err => rfl
    | ok =>
    cases hm : messagesOfAny bs.length c.length first second with
    | error err => rfl
    | ok messages =>
    obtain _ | ⟨firsts, cs, seconds⟩ := messages
    · rfl
    · -- There are messages for the branches, so all challenges have the length of `c`.
      obtain ⟨-, -, -, -, -, hlen⟩ := messagesOfAny_eq_some.mp hm
      have hcs : ∀ x ∈ cs, x.length = slot.soundness.byteLength :=
        fun x hx => (hlen x hx).trans (hc c hslot)
      have hzeros : (List.replicate c.length (0 : UInt8)).length = slot.soundness.byteLength := by
        rw [List.length_replicate, hc c hslot]
      simp only [ok_bind, pure_eq_ok, hops.addAll_eq hzeros hcs, ChallengeOps.addAll_plain,
        verifyEach_congr ht hcs hput]

/-! ## Calls -/

/-- All parts of the verifier have the soundness parameter `t`, and the challenge that it holds has
the right length. -/
structure Fits (t : Soundness) (v : Verifier E) : Prop where
  uniform : v.protocol.Uniform t
  challenge : v.ChallengeFits

theorem Obtainable.fits {v : Verifier E} (h : v.Obtainable) : v.Fits v.soundness where
  uniform := v.soundness_protocol ▸ h.constructible_and_challenge.1.uniform
  challenge := h.constructible_and_challenge.2

omit [DecidableEq E] in
theorem Fits.length_eq {v : Verifier E} (h : v.Fits t) (c : Bytes) (hc : v.challenge = some c) :
    c.length = t.byteLength := by
  have ht : v.soundness = t := v.soundness_protocol ▸ h.uniform.soundness_eq
  rw [← ht]
  exact h.challenge c hc

theorem step_agreesWith {v : Verifier E} (h : v.Fits t) (hops : ops.ExactOn t) (call : Call E) :
    Sampling.AgreesWith (v.step call ops) (v.step call) := by
  cases call with
  | verify s first second =>
    simp only [step, verify_eq h.uniform hops h.length_eq]
    exact .refl _
  | draw => exact .refl _
  | keep c => exact .refl _
  | reset => exact .refl _

/-- All exact operations give the same runs, whatever the calls are and whatever is drawn. -/
theorem run_agreesWith {v : Verifier E} (h : v.Fits t) (hops : ops.ExactOn t)
    (calls : List (Call E)) : Sampling.AgreesWith (v.run calls ops) (v.run calls) := by
  induction calls generalizing v with
  | nil => exact .refl _
  | cons call calls ih =>
    refine .bind_always (step_agreesWith h hops call) (h.challenge.step call) ?_
    rintro ⟨outcome, v'⟩ ⟨hprotocol, hchallenge⟩
    exact .bind (ih ⟨hprotocol ▸ h.uniform, hchallenge⟩) fun x => .refl _

end SigmaProofs.Verifier
