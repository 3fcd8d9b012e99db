import Mathlib.Data.List.Forall2
import SigmaProofs.Proofs.Prover.Phases
import SigmaProofs.Proofs.Relation

/-!
# Histories of a prover

A prover is called any number of times, in any order, with any arguments.

* `Prover.run`: what the calls give, and the prover that is left.
* `Prover.commit_eq`, `Prover.run_commit_eq`: a first message does not depend on what was kept
  before, nor does anything after it.
* `Prover.InStep`: the last outcome tells the phase of the prover, and every response comes right
  after a first message. Each call keeps this (`InStep.step`), and so does every run (`InStep.run`).
* `Prover.run_follows`: what a caller sees of a prover is a machine of two states.
-/

namespace SigmaProofs.Prover

variable {E : Type}

/-- A call of a prover. -/
inductive Call (E : Type) where
  | commit (input : Witnessed E)
  | respond (challenge : Bytes)
  | reset

/-- What a call gave. -/
inductive Outcome where
  | committed (result : Except ProtocolError Message)
  | responded (result : Except ProtocolError Message)
  | erased

/-- The outcome is one of the call. -/
inductive Call.Yields : Call E → Outcome → Prop
  | commit (input : Witnessed E) (result : Except ProtocolError Message) :
      Yields (.commit input) (.committed result)
  | respond (challenge : Bytes) (result : Except ProtocolError Message) :
      Yields (.respond challenge) (.responded result)
  | reset : Yields .reset .erased

def step (p : Prover E) (call : Call E) (ops : ChallengeOps := .plain) :
    Sampling (Outcome × Prover E) :=
  match call with
  | .commit input => do
    let (result, p') ← p.commit input ops
    return (.committed result, p')
  | .respond challenge =>
    let (result, p') := p.respond challenge ops
    return (.responded result, p')
  | .reset => return (.erased, p.reset)

/-- The outcomes of several calls, in order, and the prover that is left. -/
def run (p : Prover E) (calls : List (Call E)) (ops : ChallengeOps := .plain) :
    Sampling (List Outcome × Prover E) :=
  match calls with
  | [] => return ([], p)
  | call :: calls => do
    let (outcome, p') ← p.step call ops
    let (outcomes, p'') ← p'.run calls ops
    return (outcome :: outcomes, p'')

theorem step_yields (p : Prover E) (call : Call E) :
    (p.step call).Always fun (outcome, _) => call.Yields outcome := by
  cases call with
  | commit input =>
    simp only [step, Sampling.always_bind]
    exact Sampling.always_of_forall fun result => .commit input result.1
  | respond challenge => exact .respond challenge _
  | reset => exact .reset

/-- Each call has its outcome. -/
theorem run_yields (p : Prover E) (calls : List (Call E)) :
    (p.run calls).Always fun (outcomes, _) => List.Forall₂ Call.Yields calls outcomes := by
  induction calls generalizing p with
  | nil => exact .nil
  | cons call calls ih =>
    simp only [run, Sampling.always_bind]
    refine (p.step_yields call).mono ?_
    rintro ⟨outcome, p'⟩ h
    refine (ih p').mono ?_
    rintro ⟨outcomes, _⟩ hs
    exact .cons h hs

/-! ## First messages forget -/

theorem simulateFrom_eq (ps : List (Prover E)) (ss : List (Statement E)) :
    simulateOthers.simulateFrom ps ss =
      simulateOthers.simulateFrom (ofProtocols (protocols ps)) ss := by
  induction ps generalizing ss with
  | nil => rfl
  | cons p ps ih =>
    cases ss with
    | nil => rfl
    | cons s ss =>
      rw [protocols, ofProtocols, simulateOthers.simulateFrom, simulateOthers.simulateFrom,
        protocol_ofProtocol, ih ss]

theorem simulateOthers_eq (ps : List (Prover E)) (ss : List (Statement E)) (i : Nat) :
    simulateOthers ps ss i = simulateOthers (ofProtocols (protocols ps)) ss i := by
  induction ps generalizing ss i with
  | nil => cases i <;> rfl
  | cons p ps ih =>
    cases ss with
    | nil => cases i <;> rfl
    | cons s ss =>
      cases i with
      | zero =>
        rw [protocols, ofProtocols, simulateOthers, simulateOthers, simulateFrom_eq]
      | succ i =>
        rw [protocols, ofProtocols, simulateOthers, simulateOthers, protocol_ofProtocol, ih ss i]

/-- Of the branches of an AND composition, those after a failed one are left as they are; so the
lists may differ after an error, but only in what is erased next. -/
theorem commitEach_bind_eq {β : Type} {ps : List (Prover E)} {ss : List (Statement E)}
    {ws : List Witness} (hss : ps.length = ss.length) (hws : ps.length = ws.length)
    (h : ∀ p ∈ ps, ∀ input, p.commit input = (ofProtocol p.protocol).commit input)
    {k : Except ProtocolError (List Message) × List (Prover E) → Sampling β}
    (hk : ∀ err qs qs', protocols qs = protocols qs' → k (.error err, qs) = k (.error err, qs')) :
    commitEach ps ss ws >>= k = commitEach (ofProtocols (protocols ps)) ss ws >>= k := by
  induction ps generalizing ss ws k with
  | nil => rfl
  | cons p ps ih =>
    obtain _ | ⟨s, ss⟩ := ss
    · simp at hss
    obtain _ | ⟨w, ws⟩ := ws
    · simp at hws
    obtain ⟨hp, hps⟩ := List.forall_mem_cons.mp h
    rw [protocols, ofProtocols, commitEach, commitEach, ← hp, bind_assoc, bind_assoc]
    refine bind_congr ?_
    rintro ⟨err | first, p'⟩
    · exact hk err _ _ (by rw [protocols, protocols, protocols_ofProtocols])
    · simp only [bind_assoc, pure_bind]
      refine ih (by simpa using hss) (by simpa using hws) hps fun err qs qs' hqs => ?_
      exact hk err _ _ (by rw [protocols, protocols, hqs])

theorem commitAt_eq {ps : List (Prover E)}
    (h : ∀ p ∈ ps, ∀ input, p.commit input = (ofProtocol p.protocol).commit input) (i : Nat)
    (input : Witnessed E) :
    commitAt ps i input = commitAt (ofProtocols (protocols ps)) i input := by
  induction ps generalizing i with
  | nil => rfl
  | cons p ps ih =>
    obtain ⟨hp, hps⟩ := List.forall_mem_cons.mp h
    cases i with
    | zero =>
      rw [protocols, ofProtocols, commitAt, commitAt, ← hp, resetAll_eq ps, resetAll_ofProtocols]
    | succ i =>
      rw [protocols, ofProtocols, commitAt, commitAt, ih hps i, reset_eq p, reset_ofProtocol]

/-- What a first message gives, and the prover that it leaves, depend on the protocol only, not on
what was kept before. -/
theorem commit_eq (p : Prover E) (input : Witnessed E) :
    p.commit input = (ofProtocol p.protocol).commit input := by
  induction p generalizing input with
  | leaf => rfl
  | adapted c p ih =>
    rw [protocol, ofProtocol, commit, commit, reset_eq p, reset_ofProtocol]
    split
    · rfl
    · rw [ih]
  | all t isPending bs ih =>
    rw [protocol, ofProtocol, commit, commit, ofProtocols_length, protocols_length,
      resetAll_ofProtocols, resetAll_eq bs]
    split
    · rfl
    · rename_i ss ws hinput
      simp only [bind_eq_ok, pure_eq_ok, Except.ok.injEq, Prod.mk.injEq, checkArity_eq_ok] at hinput
      obtain ⟨_, -, _, hss, _, -, _, hws, rfl, rfl⟩ := hinput
      refine commitEach_bind_eq hss hws ih fun err qs qs' hqs => ?_
      simp only [resetAll_eq, hqs]
  | any t pending bs ih =>
    rw [protocol, ofProtocol, commit, commit, ofProtocols_length, protocols_length,
      resetAll_ofProtocols, resetAll_eq bs]
    split
    · rfl
    · rw [simulateOthers_eq, commitAt_eq ih]

/-- From a first message on, all outcomes are those of a new prover: no random value that was drawn
before has an influence on them. -/
theorem run_commit_eq (p : Prover E) (input : Witnessed E) (calls : List (Call E)) :
    p.run (.commit input :: calls) = (ofProtocol p.protocol).run (.commit input :: calls) := by
  rw [run, run, step, step, commit_eq]

/-! ## Calls keep prover and history in step -/

/-- The last call was a first message that was given. -/
def Opened (outcomes : List Outcome) : Prop :=
  ∃ first, outcomes.getLast? = some (.committed (.ok first))

/-- Every response comes right after a first message. -/
def Alternates (outcomes : List Outcome) : Prop :=
  ∀ j second, outcomes[j]? = some (.responded (.ok second)) →
    ∃ i first, j = i + 1 ∧ outcomes[i]? = some (.committed (.ok first))

/-- The prover is in the phase that the last outcome tells. -/
structure InStep (P : Protocol E) (outcomes : List Outcome) (p : Prover E) : Prop where
  protocol_eq : p.protocol = P
  ready : Opened outcomes → p.Ready
  idle : ¬ Opened outcomes → p.Idle
  alternates : Alternates outcomes

theorem opened_append {outcomes : List Outcome} {outcome : Outcome} :
    Opened (outcomes ++ [outcome]) ↔ ∃ first, outcome = .committed (.ok first) := by
  simp [Opened]

/-- A history goes on with anything but a response, and with a response after a first message. -/
theorem Alternates.append {outcomes : List Outcome} {outcome : Outcome} (h : Alternates outcomes)
    (hlast : ∀ second, outcome = .responded (.ok second) → Opened outcomes) :
    Alternates (outcomes ++ [outcome]) := by
  intro j second hj
  rcases Nat.lt_trichotomy j outcomes.length with hlt | rfl | hgt
  · rw [List.getElem?_append_left hlt] at hj
    obtain ⟨i, first, rfl, hi⟩ := h j second hj
    exact ⟨i, first, rfl, by rw [List.getElem?_append_left (by omega), hi]⟩
  · rw [List.getElem?_concat_length, Option.some.injEq] at hj
    obtain ⟨first, hfirst⟩ := hlast second hj
    rw [List.getLast?_eq_getElem?] at hfirst
    have hpos : outcomes.length ≠ 0 := by
      intro h0
      simp [List.length_eq_zero_iff.mp h0] at hfirst
    exact ⟨outcomes.length - 1, first, by omega,
      by rw [List.getElem?_append_left (by omega), hfirst]⟩
  · rw [List.getElem?_eq_none (by simpa using hgt)] at hj
    cases hj

theorem inStep_ofProtocol (P : Protocol E) : InStep P [] (ofProtocol P) where
  protocol_eq := protocol_ofProtocol P
  ready := by rintro ⟨first, h⟩; simp at h
  idle _ := idle_ofProtocol P
  alternates j second hj := by simp at hj

/-- A prover that is left idle is in step with any outcome but a first message. -/
theorem InStep.append_idle {P : Protocol E} {outcomes : List Outcome} {p p' : Prover E}
    {outcome : Outcome} (h : InStep P outcomes p) (hp' : p' = ofProtocol P)
    (hfirst : ∀ first, outcome ≠ .committed (.ok first))
    (hsecond : ∀ second, outcome = .responded (.ok second) → Opened outcomes) :
    InStep P (outcomes ++ [outcome]) p' where
  protocol_eq := by rw [hp', protocol_ofProtocol]
  ready ho := by
    obtain ⟨first, rfl⟩ := opened_append.mp ho
    exact absurd rfl (hfirst first)
  idle _ := hp' ▸ idle_ofProtocol P
  alternates := h.alternates.append hsecond

/-- Each call keeps prover and history in step. -/
theorem InStep.step {P : Protocol E} (hP : P.Constructible) {outcomes : List Outcome}
    {p : Prover E} (h : InStep P outcomes p) (call : Call E) :
    (p.step call).Always fun (outcome, p') => InStep P (outcomes ++ [outcome]) p' := by
  obtain rfl := h.protocol_eq
  cases call with
  | commit input =>
    simp only [Prover.step, Sampling.always_bind]
    refine (commit_phase p input).mono ?_
    rintro ⟨err | first, p'⟩ ⟨hprotocol, hready, hidle⟩
    · refine h.append_idle ?_ (by simp) (by simp)
      rw [← hprotocol]
      exact hidle err rfl
    · exact ⟨hprotocol, fun _ => hready first rfl,
        fun hno => absurd (opened_append.mpr ⟨first, rfl⟩) hno, h.alternates.append (by simp)⟩
  | respond c =>
    by_cases ho : Opened outcomes
    · have hresponds := respond_of_ready hP.uniform (h.ready ho) c
      exact h.append_idle hresponds.fresh (by simp) fun _ _ => ho
    · have hidle := h.idle ho
      rw [Prover.step, respond_of_idle hidle]
      exact h.append_idle hidle (by simp) (by simp)
  | reset => exact h.append_idle p.reset_eq (by simp) (by simp)

/-- Every run keeps prover and history in step. -/
theorem InStep.run {P : Protocol E} (hP : P.Constructible) {before : List Outcome} {p : Prover E}
    (h : InStep P before p) (calls : List (Call E)) :
    (p.run calls).Always fun (outcomes, p') => InStep P (before ++ outcomes) p' := by
  induction calls generalizing before p with
  | nil =>
    show InStep P (before ++ []) p
    rwa [List.append_nil]
  | cons call calls ih =>
    simp only [Prover.run, Sampling.always_bind]
    refine (h.step hP call).mono ?_
    rintro ⟨outcome, p'⟩ h'
    refine (ih h').mono ?_
    rintro ⟨outcomes, p''⟩ h''
    show InStep P (before ++ outcome :: outcomes) p''
    rw [List.append_cons]
    exact h''

/-! ## What a caller sees -/

/-- What a caller may expect of a prover after calls and their outcomes. -/
structure Follows (P : Protocol E) (calls : List (Call E)) (outcomes : List Outcome)
    (p : Prover E) : Prop where
  outcomes_of_calls : List.Forall₂ Call.Yields calls outcomes
  hasPending_iff : p.hasPending = true ↔
    ∃ first, outcomes.getLast? = some (.committed (.ok first))
  /-- No part of the tree keeps anything that `hasPending` does not tell of. -/
  fresh : p.hasPending = false → p = ofProtocol P
  /-- A response to a challenge of the right length is given, -/
  respond_ok (c : Bytes) : (∃ second, (p.respond c).1 = .ok second) ↔
    p.hasPending = true ∧ c.length = P.soundness.byteLength
  /-- any other challenge is blamed on the verifier, -/
  respond_deviation (c : Bytes) : (p.respond c).1 =
      .error (.deviation (.challengeLength P.soundness.byteLength c.length)) ↔
    p.hasPending = true ∧ c.length ≠ P.soundness.byteLength
  /-- and a response before a first message is refused; nothing else happens. -/
  respond_illegal (c : Bytes) :
    (p.respond c).1 = .error (.illegalState .respondBeforeCommit) ↔ p.hasPending = false
  /-- Whatever the challenge is, the prover is as good as new afterwards. -/
  respond_fresh (c : Bytes) : (p.respond c).2 = ofProtocol P
  /-- So it is from the next first message on, which draws random values of its own. -/
  commit_fresh (input : Witnessed E) (calls' : List (Call E)) :
    p.run (.commit input :: calls') = (ofProtocol P).run (.commit input :: calls')
  /-- Each response uses up the random values of the first message right before it. -/
  response_after_commit : ∀ j second, outcomes[j]? = some (.responded (.ok second)) →
    ∃ i first, j = i + 1 ∧ outcomes[i]? = some (.committed (.ok first))

theorem InStep.follows {P : Protocol E} (hP : P.Constructible) {calls : List (Call E)}
    {outcomes : List Outcome} {p : Prover E} (h : InStep P outcomes p)
    (hyields : List.Forall₂ Call.Yields calls outcomes) : Follows P calls outcomes p := by
  obtain rfl := h.protocol_eq
  by_cases ho : Opened outcomes
  · have hpending := (h.ready ho).hasPending_eq
    have hresponds := respond_of_ready hP.uniform (h.ready ho)
    exact {
      outcomes_of_calls := hyields
      hasPending_iff := iff_of_true hpending ho
      fresh := fun hno => absurd hno (by simp [hpending])
      respond_ok := fun c => by rw [(hresponds c).ok_iff, hpending, eq_self, true_and]
      respond_deviation := fun c => by rw [(hresponds c).deviation_iff, hpending, eq_self, true_and]
      respond_illegal := fun c => iff_of_false (hresponds c).not_illegal (by simp [hpending])
      respond_fresh := fun c => (hresponds c).fresh
      commit_fresh := p.run_commit_eq
      response_after_commit := h.alternates }
  · have hidle := h.idle ho
    have hpending := hidle.hasPending_eq
    exact {
      outcomes_of_calls := hyields
      hasPending_iff := iff_of_false (by simp [hpending]) ho
      fresh := fun _ => hidle
      respond_ok := fun c => by simp [respond_of_idle hidle, hpending]
      respond_deviation := fun c => by simp [respond_of_idle hidle, hpending]
      respond_illegal := fun c => by simp [respond_of_idle hidle, hpending]
      respond_fresh := fun c => by rw [respond_of_idle hidle]; exact hidle
      commit_fresh := p.run_commit_eq
      response_after_commit := h.alternates }

/-- After any calls with any arguments, whatever is drawn, a prover does what is expected of it. -/
theorem run_follows {P : Protocol E} (hP : P.Constructible) (calls : List (Call E)) :
    ((ofProtocol P).run calls).Always fun (outcomes, p) => Follows P calls outcomes p := by
  refine (((inStep_ofProtocol P).run hP calls).and (run_yields _ calls)).mono ?_
  rintro ⟨outcomes, p⟩ ⟨h, hyields⟩
  exact h.follows hP hyields

/-- A response that is refused, a run with a challenge that is too long, and a run that succeeds but
for a second response. -/
def smallCalls : List (Call Nat) :=
  [.respond [7], .commit ⟨Protocol.smallStatement, Protocol.smallWitness⟩, .respond [7, 7],
    .commit ⟨Protocol.smallStatement, Protocol.smallWitness⟩, .respond [7], .respond [8], .reset]

theorem run_follows_smallTree :
    ((ofProtocol Protocol.smallTree).run smallCalls).Always fun (outcomes, p) =>
      Follows Protocol.smallTree smallCalls outcomes p :=
  run_follows Protocol.smallTree_constructible smallCalls

end SigmaProofs.Prover
