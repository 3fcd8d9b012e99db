import SigmaProofs.Proofs.ChallengeOps
import SigmaProofs.Proofs.Prover.Shares

/-!
# Provers and the lengths of challenges

A prover adds up challenges for the response of an OR composition, and its simulators do for the
first message.

* `Prover.run_agreesWith`: if a prover has one soundness parameter and what it keeps fits, all
  operations that are exact on challenges give the same runs.
* `Prover.respond_guarded`: if what it keeps does not fit, a guard stops the response, and that is
  seen of the prover that is left.
-/

namespace SigmaProofs.Prover

variable {E : Type} {t : Soundness} {ops : ChallengeOps}

/-! ## First messages -/

theorem simulateFrom_agreesWith {ps : List (Prover E)} (h : ∀ p ∈ ps, p.protocol.Uniform t)
    (hops : ops.ExactOn t) (ss : List (Statement E)) :
    Sampling.AgreesWith (simulateOthers.simulateFrom ps ss ops)
      (simulateOthers.simulateFrom ps ss) := by
  induction ps generalizing ss with
  | nil => exact .refl _
  | cons p ps ih =>
    obtain _ | ⟨s, ss⟩ := ss
    · exact .refl _
    obtain ⟨hp, hps⟩ := List.forall_mem_cons.mp h
    simp only [simulateOthers.simulateFrom]
    refine .bind (Protocol.simulate_agreesWith hp hops s) ?_
    rintro (err | run)
    · exact .refl _
    · exact .bind (ih hps ss) fun runs => .refl _

theorem simulateOthers_agreesWith {ps : List (Prover E)} (h : ∀ p ∈ ps, p.protocol.Uniform t)
    (hops : ops.ExactOn t) (ss : List (Statement E)) (i : Nat) :
    Sampling.AgreesWith (simulateOthers ps ss i ops) (simulateOthers ps ss i) := by
  induction ps generalizing ss i with
  | nil => cases i <;> exact .refl _
  | cons p ps ih =>
    obtain _ | ⟨s, ss⟩ := ss
    · cases i <;> exact .refl _
    obtain ⟨hp, hps⟩ := List.forall_mem_cons.mp h
    cases i with
    | zero =>
      simp only [simulateOthers]
      exact .bind (simulateFrom_agreesWith hps hops ss) fun runs => .refl _
    | succ i =>
      simp only [simulateOthers]
      refine .bind (Protocol.simulate_agreesWith hp hops s) ?_
      rintro (err | run)
      · exact .refl _
      · exact .bind (ih hps ss i) fun runs => .refl _

theorem commitEach_agreesWith {ps : List (Prover E)}
    (h : ∀ p ∈ ps, ∀ input, Sampling.AgreesWith (p.commit input ops) (p.commit input))
    (ss : List (Statement E)) (ws : List Witness) :
    Sampling.AgreesWith (commitEach ps ss ws ops) (commitEach ps ss ws) := by
  induction ps generalizing ss ws with
  | nil => exact .refl _
  | cons p ps ih =>
    obtain _ | ⟨s, ss⟩ := ss
    · exact .refl _
    obtain _ | ⟨w, ws⟩ := ws
    · exact .refl _
    obtain ⟨hp, hps⟩ := List.forall_mem_cons.mp h
    simp only [commitEach]
    refine .bind (hp ⟨s, w⟩) ?_
    rintro ⟨err | first, p'⟩
    · exact .refl _
    · exact .bind (ih hps ss ws) fun x => .refl _

theorem commitAt_agreesWith {ps : List (Prover E)}
    (h : ∀ p ∈ ps, ∀ input, Sampling.AgreesWith (p.commit input ops) (p.commit input)) (i : Nat)
    (input : Witnessed E) :
    Sampling.AgreesWith (commitAt ps i input ops) (commitAt ps i input) := by
  induction ps generalizing i with
  | nil => exact .refl _
  | cons p ps ih =>
    obtain ⟨hp, hps⟩ := List.forall_mem_cons.mp h
    cases i with
    | zero =>
      simp only [commitAt]
      exact .bind (hp input) fun x => .refl _
    | succ i =>
      simp only [commitAt]
      exact .bind (ih hps i) fun x => .refl _

/-- Nothing is added up for a first message but what the simulators of branches add up. -/
theorem commit_agreesWith {p : Prover E} (hP : p.protocol.Uniform t) (hops : ops.ExactOn t)
    (input : Witnessed E) : Sampling.AgreesWith (p.commit input ops) (p.commit input) := by
  induction p generalizing input with
  | leaf t' l pending =>
    simp only [commit]
    exact .refl _
  | adapted conversion p ih =>
    obtain _ | ⟨_, hP⟩ := hP
    simp only [commit]
    cases conversion.applyInput input with
    | error err => exact .refl _
    | ok input => exact .bind (ih hP input) fun x => .refl _
  | all t' isPending bs ih =>
    obtain _ | _ | ⟨_, hbs⟩ := hP
    have hcommit (b : Prover E) (hb : b ∈ bs) := ih b hb (hbs _ (mem_protocols hb))
    simp only [commit]
    cases input.statement.expectAll with
    | error err => exact .refl _
    | ok ss =>
    simp only [ok_bind]
    cases checkArity bs.length ss.length with
    | error err => exact .refl _
    | ok =>
    cases input.witness.expectAll with
    | error err => exact .refl _
    | ok ws =>
    simp only [ok_bind]
    cases checkArity bs.length ws.length with
    | error err => exact .refl _
    | ok => exact .bind (commitEach_agreesWith hcommit ss ws) fun x => .refl _
  | any t' pending bs ih =>
    obtain _ | _ | _ | ⟨_, hbs⟩ := hP
    have huniform (b : Prover E) (hb : b ∈ bs) := hbs _ (mem_protocols hb)
    have hcommit (b : Prover E) (hb : b ∈ bs) := ih b hb (huniform b hb)
    simp only [commit]
    cases input.statement.expectAny with
    | error err => exact .refl _
    | ok ss =>
    simp only [ok_bind]
    cases checkArity bs.length ss.length with
    | error err => exact .refl _
    | ok =>
    cases input.witness.expectAny with
    | error err => exact .refl _
    | ok w =>
    obtain ⟨index, w⟩ := w
    simp only [ok_bind]
    cases ss[index]? with
    | none => exact .refl _
    | some s =>
      refine .bind (simulateOthers_agreesWith huniform hops ss index) ?_
      rintro (err | runs)
      · exact .refl _
      · exact .bind (commitAt_agreesWith hcommit index ⟨s, w⟩) fun x => .refl _

/-! ## Responses -/

theorem respondEach_congr {ps : List (Prover E)} {c : Bytes}
    (h : ∀ p ∈ ps, p.respond c ops = p.respond c) :
    respondEach ps c ops = respondEach ps c := by
  induction ps with
  | nil => rfl
  | cons p ps ih =>
    obtain ⟨hp, hps⟩ := List.forall_mem_cons.mp h
    rw [respondEach_cons, respondEach_cons, hp, ih hps]

theorem respondAt_congr {ps : List (Prover E)} {c : Bytes}
    (h : ∀ p ∈ ps, p.respond c ops = p.respond c) (i : Nat) :
    respondAt ps i c ops = respondAt ps i c := by
  induction ps generalizing i with
  | nil => rfl
  | cons p ps ih =>
    obtain ⟨hp, hps⟩ := List.forall_mem_cons.mp h
    cases i with
    | zero => simp only [respondAt, hp]
    | succ i => simp only [respondAt, ih hps i]

/-- The challenges that are kept are added to the one that is given when its length was checked. -/
theorem respond_eq {p : Prover E} (hP : p.protocol.Uniform t) (hp : p.SharesFit t)
    (hops : ops.ExactOn t) (c : Bytes) : p.respond c ops = p.respond c := by
  induction p generalizing c with
  | leaf t' l pending => cases pending <;> simp only [respond]
  | adapted conversion p ih =>
    obtain _ | ⟨_, hP⟩ := hP
    obtain _ | ⟨_, hp⟩ := hp
    simp only [respond, ih hP hp]
  | all t' isPending bs ih =>
    obtain _ | _ | ⟨_, hbs⟩ := hP
    obtain _ | _ | ⟨_, _, hfits⟩ := hp
    cases isPending with
    | false => simp only [respond]
    | true =>
      have hrespond (b : Prover E) (hb : b ∈ bs) :=
        ih b hb (hbs _ (mem_protocols hb)) (hfits b hb) c
      simp only [respond, respondEach_congr hrespond]
  | any t' pending bs ih =>
    obtain _ | _ | _ | ⟨_, hbs⟩ := hP
    obtain _ | _ | _ | ⟨_, hpending, hfits⟩ := hp
    cases pending with
    | none => simp only [respond]
    | some pending =>
      simp only [respond]
      -- Nothing is added to a challenge of another length: it is refused before.
      by_cases hc : c.length = t.byteLength
      · have hrespond (own : Bytes) (b : Prover E) (hb : b ∈ bs) :=
          ih b hb (hbs _ (mem_protocols hb)) (hfits b hb) own
        simp only [requireChallenge_ok hc, hops.addAll_eq hc (hpending pending rfl),
          ChallengeOps.addAll_plain, respondAt_congr (hrespond _)]
      · rw [requireChallenge_error hc]

/-- But a kept challenge of another length stops a guarded response, and the shares are kept. -/
theorem respond_guarded {t' : Soundness} {pending : OrPending} (h : ¬ pending.SharesFit t)
    (bs : List (Prover E)) {c : Bytes} (hc : c.length = t'.byteLength) (err : ProtocolError) :
    respond (.any t' (some pending) bs) c (.guarded t err) =
      (.error err, .any t' (some pending) bs) := by
  have hshare : ∃ share ∈ pending.challenges.eraseIdx pending.index,
      share.length ≠ t.byteLength := by
    simpa [OrPending.SharesFit] using h
  obtain ⟨share, hmem, hlen⟩ := hshare
  have hstop : (ChallengeOps.guarded t err).addAll c (pending.challenges.eraseIdx pending.index) =
      .error err :=
    ChallengeOps.addAll_guarded_eq_error_iff.mpr
      ⟨List.ne_nil_of_mem hmem, .inr ⟨share, hmem, hlen⟩⟩
  simp only [respond, requireChallenge_ok hc, hstop]

/-! ## Calls -/

theorem step_agreesWith {p : Prover E} (h : p.Fits t) (hops : ops.ExactOn t) (call : Call E) :
    Sampling.AgreesWith (p.step call ops) (p.step call) := by
  cases call with
  | commit input => exact .bind (commit_agreesWith h.uniform hops input) fun x => .refl _
  | respond c =>
    simp only [step, respond_eq h.uniform h.shares hops]
    exact .refl _
  | reset => exact .refl _

/-- All exact operations give the same runs, whatever the calls are and whatever is drawn. -/
theorem run_agreesWith {p : Prover E} (h : p.Fits t) (hops : ops.ExactOn t)
    (calls : List (Call E)) : Sampling.AgreesWith (p.run calls ops) (p.run calls) := by
  induction calls generalizing p with
  | nil => exact .refl _
  | cons call calls ih =>
    refine .bind_always (step_agreesWith h hops call) (h.step call) fun x h' => ?_
    exact .bind (ih h') fun y => .refl _

end SigmaProofs.Prover
