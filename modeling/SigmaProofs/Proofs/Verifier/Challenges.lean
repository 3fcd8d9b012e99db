import Mathlib.Data.List.Forall2
import SigmaProofs.Proofs.Verifier.History

/-!
# One challenge, one verdict

A verifier is called any number of times, in any order, with any arguments. The challenge that it
holds is the last one that was chosen, until a verdict or an erasure takes it.

* `Verifier.slots`: all slots of the tree; `Verifier.innerSlots`: those of the branches.
* `Verifier.Standing`: a challenge was chosen in a history, and after it there were only attempts to
  set another one that failed.
* `Verifier.InStep`: the challenge that is held is the one that stands, and each verdict was given
  under the challenge that stood before it. Each call keeps this (`InStep.step`), and so does every
  run (`InStep.run`).
* `Verifier.run_servesOnce`: what a caller sees of a verifier is a slot that each verdict empties.
-/

namespace SigmaProofs.Verifier

variable {E : Type}

/-! ## The slots of a tree -/

mutual

/-- The slots of all parts of the tree but the whole. -/
def innerSlots : Verifier E → List ChallengeSlot
  | leaf .. => []
  | adapted _ inner => innerSlots inner
  | all _ branches => slotsOfAll branches
  | any _ branches => slotsOfAll branches

def slotsOfAll : List (Verifier E) → List ChallengeSlot
  | [] => []
  | v :: vs => v.slot :: innerSlots v ++ slotsOfAll vs

end

/-- All slots of the tree, that of the whole first. -/
def slots (v : Verifier E) : List ChallengeSlot := v.slot :: v.innerSlots

theorem innerSlots_withSlot (slot : ChallengeSlot) :
    ∀ v : Verifier E, (v.withSlot slot).innerSlots = v.innerSlots
  | .leaf .. | .all .. | .any .. => rfl
  | .adapted _ inner => innerSlots_withSlot slot inner

mutual

theorem innerSlots_ofProtocol : ∀ P : Protocol E, ∀ slot ∈ (ofProtocol P).innerSlots,
    slot.challenge = none
  | .leaf .. => by simp [ofProtocol, innerSlots]
  | .adapted _ inner => innerSlots_ofProtocol inner
  | .all _ branches => slotsOfAll_ofProtocols branches
  | .any _ branches => slotsOfAll_ofProtocols branches

theorem slotsOfAll_ofProtocols : ∀ Ps : List (Protocol E), ∀ slot ∈ slotsOfAll (ofProtocols Ps),
    slot.challenge = none
  | [] => by simp [ofProtocols, slotsOfAll]
  | P :: Ps => by
    rw [ofProtocols, slotsOfAll, List.forall_mem_append, List.forall_mem_cons]
    exact ⟨⟨challenge_ofProtocol P, innerSlots_ofProtocol P⟩, slotsOfAll_ofProtocols Ps⟩

end

/-- A new verifier holds no challenge anywhere. -/
theorem slots_ofProtocol (P : Protocol E) : ∀ slot ∈ (ofProtocol P).slots, slot.challenge = none :=
  List.forall_mem_cons.mpr ⟨challenge_ofProtocol P, innerSlots_ofProtocol P⟩

theorem innerSlots_holding (P : Protocol E) (held : Option Bytes) :
    ∀ slot ∈ (holding P held).innerSlots, slot.challenge = none := by
  rw [holding, innerSlots_withSlot]
  exact innerSlots_ofProtocol P

@[simp] theorem challenge_holding (P : Protocol E) (held : Option Bytes) :
    (holding P held).challenge = held := by
  rw [challenge, slot_holding]

/-! ## Histories -/

/-- The outcome is one of the call, for a verifier with the given parameter: a challenge from
outside is kept if it has the right length. -/
inductive Call.Yields (t : Soundness) : Call E → Outcome → Prop
  | draw {c : Bytes} (hc : c.length = t.byteLength) : Yields t .draw (.drawn c)
  | keep {c : Bytes} (hc : c.length = t.byteLength) : Yields t (.keep c) (.kept (.ok ()))
  | refuse {c : Bytes} (hc : c.length ≠ t.byteLength) :
      Yields t (.keep c) (.kept (.error (.challengeLength t.byteLength c.length)))
  | reset : Yields t .reset .erased
  | verify (s : Statement E) (first second : Message) (verdict : Except ProtocolError Bool) :
      Yields t (.verify s first second) (.judged verdict)

/-- The call chose the challenge. -/
inductive Chose : Call E × Outcome → Bytes → Prop
  | draw (c : Bytes) : Chose (.draw, .drawn c) c
  | keep (c : Bytes) : Chose (.keep c, .kept (.ok ())) c

/-- The call was an attempt to set a challenge, which failed. -/
inductive Refused : Call E × Outcome → Prop
  | keep (c : Bytes) (fault : Deviation) : Refused (.keep c, .kept (.error fault))

theorem Chose.unique {x : Call E × Outcome} {c c' : Bytes} (h : Chose x c) (h' : Chose x c') :
    c = c' := by
  cases h <;> cases h' <;> rfl

theorem Chose.not_refused {x : Call E × Outcome} {c : Bytes} (h : Chose x c) : ¬ Refused x := by
  cases h <;> rintro ⟨⟩

/-- The challenge was chosen, and after it there were only attempts that failed. -/
def Standing (history : List (Call E × Outcome)) (c : Bytes) : Prop :=
  ∃ before x after, history = before ++ x :: after ∧ Chose x c ∧ ∀ y ∈ after, Refused y

theorem not_standing_nil (c : Bytes) : ¬ Standing ([] : List (Call E × Outcome)) c := by
  rintro ⟨before, x, after, h, -⟩
  simp at h

/-- A call in a history with one more call is the last one, or was in the history before. -/
theorem append_singleton_cases {α : Type} {history before after : List α} {x y : α}
    (h : history ++ [x] = before ++ y :: after) :
    (after = [] ∧ before = history ∧ y = x) ∨
      ∃ between, after = between ++ [x] ∧ history = before ++ y :: between := by
  rcases List.eq_nil_or_concat' after with rfl | ⟨between, z, rfl⟩
  · obtain ⟨hbefore, hy⟩ := List.append_inj' h rfl
    exact .inl ⟨rfl, hbefore.symm, (List.cons.inj hy).1.symm⟩
  · rw [← List.cons_append, ← List.append_assoc] at h
    obtain ⟨hhistory, hx⟩ := List.append_inj' h rfl
    exact .inr ⟨between, by rw [hx], hhistory⟩

/-- After one more call, the challenge stands that it chose, or the one before if it was refused. -/
theorem standing_append {history : List (Call E × Outcome)} {x : Call E × Outcome} {c : Bytes} :
    Standing (history ++ [x]) c ↔ Chose x c ∨ Standing history c ∧ Refused x := by
  constructor
  · rintro ⟨before, y, after, h, hy, hafter⟩
    obtain ⟨-, -, rfl⟩ | ⟨between, rfl, rfl⟩ := append_singleton_cases h
    · exact .inl hy
    · obtain ⟨hbetween, hx⟩ := List.forall_mem_append.mp hafter
      exact .inr ⟨⟨before, y, between, rfl, hy, hbetween⟩, hx x (List.mem_singleton_self x)⟩
  · rintro (hx | ⟨⟨before, y, after, rfl, hy, hafter⟩, hx⟩)
    · exact ⟨history, x, [], rfl, hx, by simp⟩
    · refine ⟨before, y, after ++ [x], by simp, hy, List.forall_mem_append.mpr ⟨hafter, ?_⟩⟩
      simpa using hx

variable [DecidableEq E]

/-- Each verdict was given under the challenge that stood when it was asked for. -/
def Judged (P : Protocol E) (history : List (Call E × Outcome)) : Prop :=
  ∀ before s first second accepted after,
    history = before ++ (.verify s first second, .judged (.ok accepted)) :: after →
      ∃ c, Standing before c ∧ P.verdict c s first second = .ok accepted

theorem Judged.append {P : Protocol E} {history : List (Call E × Outcome)}
    {x : Call E × Outcome} (h : Judged P history)
    (hx : ∀ s first second accepted, x = (.verify s first second, .judged (.ok accepted)) →
      ∃ c, Standing history c ∧ P.verdict c s first second = .ok accepted) :
    Judged P (history ++ [x]) := by
  intro before s first second accepted after heq
  obtain ⟨-, rfl, hlast⟩ | ⟨between, -, rfl⟩ := append_singleton_cases heq
  · exact hx s first second accepted hlast.symm
  · exact h before s first second accepted between rfl

/-! ## Verdicts without a challenge -/

/-- Without a challenge there is no verdict, but an error. -/
theorem verify_of_none {v : Verifier E} (h : v.challenge = none) (s : Statement E)
    (first second : Message) :
    (v.verify s first second).1 = .error (.illegalState .verifyBeforeChallenge) ∨
      ∃ cause, (v.verify s first second).1 = .error (.config cause) := by
  induction v generalizing s with
  | leaf slot l =>
    have hslot : slot.challenge = none := h
    exact .inl (by simp only [verify, hslot])
  | adapted conversion inner ih =>
    rw [verify]
    cases conversion.apply s with
    | error cause => exact .inr ⟨cause, rfl⟩
    | ok s => exact ih h s
  | all slot bs =>
    have hslot : slot.challenge = none := h
    exact .inl (by simp only [verify, hslot])
  | any slot bs =>
    have hslot : slot.challenge = none := h
    exact .inl (by simp only [verify, hslot])

/-- A verdict is given under the challenge that is held. -/
theorem challenge_of_verify {v : Verifier E} {s : Statement E} {first second : Message}
    {accepted : Bool} (h : (v.verify s first second).1 = .ok accepted) :
    ∃ c, v.challenge = some c ∧ v.protocol.verdict c s first second = .ok accepted := by
  cases hc : v.challenge with
  | none =>
    rcases verify_of_none hc s first second with herr | ⟨cause, herr⟩
    · cases h.symm.trans herr
    · cases h.symm.trans herr
  | some c => exact ⟨c, rfl, (verify_fst hc s first second).symm.trans h⟩

/-! ## Calls keep verifier and history in step -/

/-- The verifier holds the challenge that stands in the history, and nothing else. -/
structure InStep (P : Protocol E) (history : List (Call E × Outcome)) (v : Verifier E) : Prop where
  eq_holding : v = holding P v.challenge
  challenge_iff (c : Bytes) : v.challenge = some c ↔ Standing history c
  length_eq (c : Bytes) : v.challenge = some c → c.length = P.soundness.byteLength
  judged : Judged P history

theorem inStep_ofProtocol (P : Protocol E) : InStep P [] (ofProtocol P) where
  eq_holding := by rw [challenge_ofProtocol, holding_none]
  challenge_iff c := by
    rw [challenge_ofProtocol]
    exact iff_of_false (by simp) (not_standing_nil c)
  length_eq c hc := by
    rw [challenge_ofProtocol] at hc
    cases hc
  judged before s first second accepted after h := by simp at h

theorem InStep.append {P : Protocol E} {history : List (Call E × Outcome)} {v : Verifier E}
    {x : Call E × Outcome} {held : Option Bytes} (h : InStep P history v)
    (hheld : ∀ c, held = some c ↔ Chose x c ∨ v.challenge = some c ∧ Refused x)
    (hlen : ∀ c, held = some c → c.length = P.soundness.byteLength)
    (hx : ∀ s first second accepted, x = (.verify s first second, .judged (.ok accepted)) →
      ∃ c, v.challenge = some c ∧ P.verdict c s first second = .ok accepted) :
    InStep P (history ++ [x]) (holding P held) where
  eq_holding := by rw [challenge_holding]
  challenge_iff c := by rw [challenge_holding, hheld, standing_append, h.challenge_iff]
  length_eq c hc := hlen c (by rwa [challenge_holding] at hc)
  judged := h.judged.append fun s first second accepted heq => by
    obtain ⟨c, hc, hverdict⟩ := hx s first second accepted heq
    exact ⟨c, (h.challenge_iff c).mp hc, hverdict⟩

/-- A challenge that was chosen is held. -/
theorem InStep.choose {P : Protocol E} {history : List (Call E × Outcome)} {v : Verifier E}
    {x : Call E × Outcome} {c : Bytes} (h : InStep P history v) (hx : Chose x c)
    (hc : c.length = P.soundness.byteLength) :
    InStep P (history ++ [x]) (holding P (some c)) := by
  refine h.append (fun c' => ⟨?_, ?_⟩) (by rintro _ ⟨⟩; exact hc) ?_
  · rintro ⟨⟩
    exact .inl hx
  · rintro (hx' | ⟨-, hx'⟩)
    · rw [hx.unique hx']
    · exact absurd hx' hx.not_refused
  · rintro s first second accepted rfl
    cases hx

/-- A verdict or an erasure takes the challenge. -/
theorem InStep.take {P : Protocol E} {history : List (Call E × Outcome)} {v : Verifier E}
    {x : Call E × Outcome} (h : InStep P history v) (hx : ∀ c, ¬ Chose x c) (hx' : ¬ Refused x)
    (hverdict : ∀ s first second accepted, x = (.verify s first second, .judged (.ok accepted)) →
      ∃ c, v.challenge = some c ∧ P.verdict c s first second = .ok accepted) :
    InStep P (history ++ [x]) (ofProtocol P) := by
  rw [← holding_none]
  exact h.append (fun c => by simp [hx, hx']) (by rintro _ ⟨⟩) hverdict

/-- An attempt that was refused changes nothing. -/
theorem InStep.refuse {P : Protocol E} {history : List (Call E × Outcome)} {v : Verifier E}
    {x : Call E × Outcome} (h : InStep P history v) (hx : Refused x) :
    InStep P (history ++ [x]) v := by
  rw [h.eq_holding]
  refine h.append (fun c => ?_) h.length_eq ?_
  · exact ⟨fun hc => .inr ⟨hc, hx⟩, fun hc => hc.elim (fun hx' => absurd hx hx'.not_refused) (·.1)⟩
  · rintro s first second accepted rfl
    cases hx

/-- Each call has its outcome, and keeps verifier and history in step. -/
theorem InStep.step {P : Protocol E} {history : List (Call E × Outcome)} {v : Verifier E}
    (h : InStep P history v) (call : Call E) :
    (v.step call).Always fun (outcome, v') =>
      call.Yields P.soundness outcome ∧ InStep P (history ++ [(call, outcome)]) v' := by
  have hv := h.eq_holding
  have hsound : v.soundness = P.soundness := by rw [hv, soundness, slot_holding]
  cases call with
  | draw =>
    simp only [Verifier.step, drawChallenge, Soundness.drawChallenge, Sampling.always_bind, hsound]
    intro c hc
    refine ⟨.draw hc, ?_⟩
    rw [hv, put_holding]
    exact h.choose (.draw c) hc
  | keep c =>
    simp only [Verifier.step]
    rw [hv, keepChallenge_holding]
    by_cases hc : c.length = P.soundness.byteLength
    · rw [requireChallenge_ok hc]
      exact ⟨.keep hc, h.choose (.keep c) hc⟩
    · rw [requireChallenge_error hc, ← hv]
      exact ⟨.refuse hc, h.refuse (.keep c _)⟩
  | reset =>
    refine ⟨.reset, ?_⟩
    rw [reset_eq, hv, protocol_holding]
    exact h.take (by rintro c ⟨⟩) (by rintro ⟨⟩) (by rintro s first second accepted ⟨⟩)
  | verify s first second =>
    refine ⟨.verify s first second _, ?_⟩
    have hsnd : (v.verify s first second).2 = ofProtocol P := by rw [hv, verify_holding]
    rw [hsnd]
    refine h.take (by rintro c ⟨⟩) (by rintro ⟨⟩) ?_
    rintro _ _ _ accepted heq
    obtain ⟨⟨rfl, rfl, rfl⟩, hverdict⟩ : _ ∧ _ := by simpa using heq
    obtain ⟨c, hc, hP⟩ := challenge_of_verify hverdict
    rw [hv, protocol_holding] at hP
    exact ⟨c, hc, hP⟩

/-- Every run keeps verifier and history in step. -/
theorem InStep.run {P : Protocol E} {before : List (Call E × Outcome)} {v : Verifier E}
    (h : InStep P before v) (calls : List (Call E)) :
    (v.run calls).Always fun (outcomes, v') =>
      List.Forall₂ (Call.Yields P.soundness) calls outcomes ∧
        InStep P (before ++ calls.zip outcomes) v' := by
  induction calls generalizing before v with
  | nil =>
    refine ⟨.nil, ?_⟩
    rwa [List.zip_nil_left, List.append_nil]
  | cons call calls ih =>
    simp only [Verifier.run, Sampling.always_bind]
    refine (h.step call).mono ?_
    rintro ⟨outcome, v'⟩ ⟨hyields, h'⟩
    refine (ih h').mono ?_
    rintro ⟨outcomes, v''⟩ ⟨hyields', h''⟩
    refine ⟨.cons hyields hyields', ?_⟩
    rwa [List.append_assoc] at h''

/-! ## What a caller sees -/

/-- What a caller may expect of a verifier after calls and their outcomes. -/
structure ServesOnce (P : Protocol E) (calls : List (Call E)) (outcomes : List Outcome)
    (v : Verifier E) : Prop where
  outcomes_of_calls : List.Forall₂ (Call.Yields P.soundness) calls outcomes
  /-- The challenge that is held is the last one that was chosen, if nothing took it since. -/
  challenge_iff (c : Bytes) : v.challenge = some c ↔
    c.length = P.soundness.byteLength ∧ Standing (calls.zip outcomes) c
  /-- No branch holds a challenge. -/
  inner_empty : ∀ slot ∈ v.innerSlots, slot.challenge = none
  /-- An attempt to set a challenge of another length changes nothing. -/
  keep_refused (c : Bytes) (hc : c.length ≠ P.soundness.byteLength) : v.step (.keep c) =
    return (.kept (.error (.challengeLength P.soundness.byteLength c.length)), v)
  /-- Whatever a verdict is, and wherever it ends, no part of the tree holds a challenge then. -/
  verify_empty (s : Statement E) (first second : Message) :
    ∀ slot ∈ (v.verify s first second).2.slots, slot.challenge = none
  /-- So it is after an erasure. -/
  reset_empty : ∀ slot ∈ v.reset.slots, slot.challenge = none
  /-- Without a challenge there is no verdict. -/
  verify_refused (hv : v.challenge = none) (s : Statement E) (first second : Message) :
    (v.verify s first second).1 = .error (.illegalState .verifyBeforeChallenge) ∨
      ∃ cause, (v.verify s first second).1 = .error (.config cause)
  /-- Each verdict was given under the challenge that stood before it, and that does not stand any
  more after it. -/
  judged : Judged P (calls.zip outcomes)

theorem InStep.servesOnce {P : Protocol E} {calls : List (Call E)} {outcomes : List Outcome}
    {v : Verifier E} (h : InStep P (calls.zip outcomes) v)
    (hyields : List.Forall₂ (Call.Yields P.soundness) calls outcomes) :
    ServesOnce P calls outcomes v where
  outcomes_of_calls := hyields
  challenge_iff c :=
    ⟨fun hc => ⟨h.length_eq c hc, (h.challenge_iff c).mp hc⟩,
      fun hc => (h.challenge_iff c).mpr hc.2⟩
  inner_empty := by
    rw [h.eq_holding]
    exact innerSlots_holding P v.challenge
  keep_refused c hc := by
    have hkeep : v.keepChallenge c =
        .error (.challengeLength P.soundness.byteLength c.length) := by
      rw [h.eq_holding, keepChallenge_holding, requireChallenge_error hc]
      rfl
    rw [Verifier.step, hkeep]
  verify_empty s first second := by
    rw [h.eq_holding, verify_holding]
    exact slots_ofProtocol P
  reset_empty := by
    rw [h.eq_holding, reset_eq, protocol_holding]
    exact slots_ofProtocol P
  verify_refused hv := verify_of_none hv
  judged := h.judged

/-- A new verifier is called any number of times, with any arguments. Whatever is drawn, each
challenge serves for at most one verdict. -/
theorem run_servesOnce (P : Protocol E) (calls : List (Call E)) :
    ((ofProtocol P).run calls).Always fun (outcomes, v) => ServesOnce P calls outcomes v := by
  refine ((inStep_ofProtocol P).run calls).mono ?_
  rintro ⟨outcomes, v⟩ ⟨hyields, h⟩
  exact InStep.servesOnce h hyields

end SigmaProofs.Verifier
