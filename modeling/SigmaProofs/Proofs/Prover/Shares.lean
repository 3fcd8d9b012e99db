import SigmaProofs.Proofs.Prover.History
import SigmaProofs.Proofs.Simulation

/-!
# The shares that a prover keeps

Between its two messages, the prover of an OR composition keeps the challenges of the branches that
it has simulated. They come from the simulators of the branches.

* `Protocol.simulateWith_challenge`: a simulated run has the challenge that was asked for.
* `Prover.SharesFit t`: all challenges that are kept, anywhere in the tree, have the length that `t`
  asks for.
* `Prover.commit_sharesFit`, `Prover.respond_keeps`: so it stays, whatever a prover of one soundness
  parameter is given. Each call keeps this (`Prover.Fits.step`) and the protocol
  (`Prover.step_protocol`).
-/

namespace SigmaProofs

variable {E : Type}

/-! ## Simulated runs -/

namespace Protocol

/-- If a simulation gives a run, it is one with the given challenge. -/
theorem simulateWith_challenge (P : Protocol E) (s : Statement E) (c : Bytes) :
    (P.simulateWith s c).Always fun result => ∀ run, result = .ok run → run.challenge = c := by
  induction P generalizing s c with
  | leaf t l =>
    unfold simulateWith Leaf.simulate
    split
    · rintro _ ⟨⟩
    · rw [Sampling.always_bind]
      refine Sampling.always_of_forall ?_
      rintro (_ | ⟨first, second⟩) _ ⟨⟩
      rfl
  | adapted conversion P ih =>
    unfold simulateWith
    split
    · rintro _ ⟨⟩
    · exact ih _ c
  | all t bs =>
    unfold simulateWith
    split
    · rintro _ ⟨⟩
    split
    · rintro _ ⟨⟩
    · rw [Sampling.always_bind]
      refine Sampling.always_of_forall ?_
      rintro (_ | runs) _ ⟨⟩
      rfl
  | any t bs =>
    unfold simulateWith
    split
    · rintro _ ⟨⟩
    split
    · rintro _ ⟨⟩
    · simp only [ChallengeOps.addAll_plain, Sampling.always_bind]
      refine Sampling.always_of_forall fun drawn => Sampling.always_of_forall ?_
      rintro (_ | runs) _ ⟨⟩
      rfl

/-- A run with a random challenge has one of the right length. -/
theorem simulate_length (P : Protocol E) (s : Statement E) :
    (P.simulate s).Always fun result =>
      ∀ run, result = .ok run → run.challenge.length = P.soundness.byteLength := by
  simp only [simulate, Soundness.drawChallenge, Sampling.always_bind, Sampling.always_drawBytes]
  intro c hc
  refine (P.simulateWith_challenge s c).mono ?_
  rintro result h run hrun
  rw [h run hrun, hc]

end Protocol

/-! ## What is kept -/

/-- The challenges of the simulated branches have the right length. -/
def OrPending.SharesFit (t : Soundness) (pending : OrPending) : Prop :=
  ∀ share ∈ pending.challenges.eraseIdx pending.index, share.length = t.byteLength

namespace Prover

/-- So have all that are kept in the tree. -/
inductive SharesFit (t : Soundness) : Prover E → Prop
  | leaf (t' : Soundness) (l : Leaf E) (pending : Option Pending) :
      SharesFit t (.leaf t' l pending)
  | adapted (c : Conversion E) {p : Prover E} (h : SharesFit t p) : SharesFit t (.adapted c p)
  | all (t' : Soundness) (isPending : Bool) {bs : List (Prover E)} (h : ∀ b ∈ bs, SharesFit t b) :
      SharesFit t (.all t' isPending bs)
  | any (t' : Soundness) {pending : Option OrPending} {bs : List (Prover E)}
      (hpending : ∀ kept, pending = some kept → kept.SharesFit t) (h : ∀ b ∈ bs, SharesFit t b) :
      SharesFit t (.any t' pending bs)

variable {t : Soundness}

theorem sharesFit_any_none (t' : Soundness) {bs : List (Prover E)} (h : ∀ b ∈ bs, b.SharesFit t) :
    SharesFit t (.any t' none bs) :=
  .any t' (by rintro _ ⟨⟩) h

/-- Nothing is kept after an erasure. -/
theorem reset_sharesFit (p : Prover E) : p.reset.SharesFit t := by
  induction p with
  | leaf t' l pending => exact .leaf t' l none
  | adapted c p ih => exact .adapted c ih
  | all t' isPending bs ih =>
    rw [reset, resetAll_eq_map]
    exact .all t' false (List.forall_mem_map.mpr ih)
  | any t' pending bs ih =>
    rw [reset, resetAll_eq_map]
    exact sharesFit_any_none t' (List.forall_mem_map.mpr ih)

theorem ofProtocol_sharesFit (P : Protocol E) : (ofProtocol P).SharesFit t := by
  rw [← reset_ofProtocol]
  exact reset_sharesFit _

theorem forall_resetAll_sharesFit (ps : List (Prover E)) : ∀ p ∈ resetAll ps, p.SharesFit t := by
  rw [resetAll_eq_map]
  exact List.forall_mem_map.mpr fun p _ => p.reset_sharesFit

/-! ## After a response -/

/-- A prover of the same protocol is left, which keeps nothing that does not fit if nothing such was
kept before. -/
structure Keeps (t : Soundness) (p p' : Prover E) : Prop where
  protocol_eq : p'.protocol = p.protocol
  fits : p.SharesFit t → p'.SharesFit t

namespace Keeps

theorem refl (p : Prover E) : Keeps t p p := ⟨rfl, id⟩

theorem reset (p : Prover E) : Keeps t p p.reset := ⟨p.protocol_reset, fun _ => p.reset_sharesFit⟩

theorem protocols_eq {ps ps' : List (Prover E)} (h : List.Forall₂ (Keeps t) ps ps') :
    protocols ps' = protocols ps := by
  induction h with
  | nil => rfl
  | cons h _ ih => rw [protocols, protocols, h.protocol_eq, ih]

theorem forall_fits {ps ps' : List (Prover E)} (h : List.Forall₂ (Keeps t) ps ps')
    (hps : ∀ p ∈ ps, p.SharesFit t) : ∀ p ∈ ps', p.SharesFit t := by
  induction h with
  | nil => exact hps
  | cons h _ ih =>
    obtain ⟨hp, hps⟩ := List.forall_mem_cons.mp hps
    exact List.forall_mem_cons.mpr ⟨h.fits hp, ih hps⟩

theorem all (t' : Soundness) (isPending isPending' : Bool) {bs bs' : List (Prover E)}
    (h : List.Forall₂ (Keeps t) bs bs') :
    Keeps t (.all t' isPending bs) (.all t' isPending' bs') where
  protocol_eq := congrArg (Protocol.all t') (protocols_eq h)
  fits := by
    rintro (_ | _ | ⟨_, _, hbs⟩)
    exact .all t' isPending' (forall_fits h hbs)

theorem any (t' : Soundness) (pending : Option OrPending) {bs bs' : List (Prover E)}
    (h : List.Forall₂ (Keeps t) bs bs') : Keeps t (.any t' pending bs) (.any t' none bs') where
  protocol_eq := congrArg (Protocol.any t') (protocols_eq h)
  fits := by
    rintro (_ | _ | _ | ⟨_, _, hbs⟩)
    exact sharesFit_any_none t' (forall_fits h hbs)

end Keeps

theorem resetAll_keeps (ps : List (Prover E)) : List.Forall₂ (Keeps t) ps (resetAll ps) := by
  induction ps with
  | nil => exact .nil
  | cons p ps ih => exact .cons (.reset p) ih

theorem forall_keeps_refl (ps : List (Prover E)) : List.Forall₂ (Keeps t) ps ps :=
  List.forall₂_same.mpr fun p _ => .refl p

theorem resetAt_keeps (ps : List (Prover E)) (i : Nat) :
    List.Forall₂ (Keeps t) ps (resetAt ps i) := by
  induction ps generalizing i with
  | nil => exact .nil
  | cons p ps ih =>
    cases i with
    | zero => exact .cons (.reset p) (forall_keeps_refl ps)
    | succ i => exact .cons (.refl p) (ih i)

theorem respondEach_keeps {ps : List (Prover E)} {c : Bytes}
    (h : ∀ p ∈ ps, Keeps t p (p.respond c).2) :
    List.Forall₂ (Keeps t) ps (respondEach ps c).2 := by
  induction ps with
  | nil => exact .nil
  | cons p ps ih =>
    obtain ⟨hp, hps⟩ := List.forall_mem_cons.mp h
    exact .cons hp (ih hps)

theorem respondAt_keeps {ps : List (Prover E)} {c : Bytes}
    (h : ∀ p ∈ ps, Keeps t p (p.respond c).2) (i : Nat) :
    List.Forall₂ (Keeps t) ps (respondAt ps i c).2 := by
  induction ps generalizing i with
  | nil => exact .nil
  | cons p ps ih =>
    obtain ⟨hp, hps⟩ := List.forall_mem_cons.mp h
    cases i with
    | zero => exact .cons hp (forall_keeps_refl ps)
    | succ i => exact .cons (.refl p) (ih hps i)

/-- A response may erase what is kept, and does nothing else to a prover, whatever its state is. -/
theorem respond_keeps (p : Prover E) (c : Bytes) : Keeps t p (p.respond c).2 := by
  induction p generalizing c with
  | leaf t' l pending =>
    have hleft : ∃ pending', (respond (.leaf t' l pending) c).2 = .leaf t' l pending' := by
      cases pending with
      | none => exact ⟨none, rfl⟩
      | some pending =>
        unfold respond
        split <;> exact ⟨none, rfl⟩
    obtain ⟨pending', hleft⟩ := hleft
    rw [hleft]
    exact ⟨rfl, fun _ => .leaf t' l pending'⟩
  | adapted conversion p ih =>
    refine ⟨congrArg (Protocol.adapted conversion) (ih c).protocol_eq, ?_⟩
    rintro (_ | ⟨_, hp⟩)
    exact .adapted conversion ((ih c).fits hp)
  | all t' isPending bs ih =>
    cases isPending with
    | false => exact .refl _
    | true =>
      unfold respond
      split
      · exact .all t' true false (resetAll_keeps bs)
      · exact .all t' true false (respondEach_keeps fun b hb => ih b hb c)
  | any t' pending bs ih =>
    cases pending with
    | none => exact .refl _
    | some pending =>
      unfold respond
      split
      · exact .any t' (some pending) (resetAt_keeps bs _)
      · rw [ChallengeOps.addAll_plain]
        exact .any t' (some pending) (respondAt_keeps (fun b hb => ih b hb _) _)

/-! ## After a first message -/

/-- All runs but the one at the given place are there, with challenges of the right length. -/
def RunsFit (t : Soundness) (index : Nat) (runs : List (Option Conversation)) : Prop :=
  ∀ x ∈ runs.eraseIdx index, ∃ run, x = some run ∧ run.challenge.length = t.byteLength

theorem orPending_sharesFit {index : Nat} {runs : List (Option Conversation)}
    (h : RunsFit t index runs) : (orPending index runs).SharesFit t := by
  intro share hshare
  have hmap : (orPending index runs).challenges.eraseIdx index =
      (runs.eraseIdx index).map fun run => (run.map (·.challenge)).getD [] :=
    List.eraseIdx_map ..
  obtain ⟨x, hx, rfl⟩ := List.mem_map.mp (hmap ▸ hshare)
  obtain ⟨run, rfl, hrun⟩ := h x hx
  exact hrun

/-- The simulated runs of all branches. -/
theorem simulateFrom_length {ps : List (Prover E)} (ht : ∀ p ∈ ps, p.soundness = t)
    (ss : List (Statement E)) :
    (simulateOthers.simulateFrom ps ss).Always fun result => ∀ runs, result = .ok runs →
      ∀ x ∈ runs, ∃ run, x = some run ∧ run.challenge.length = t.byteLength := by
  induction ps generalizing ss with
  | nil => rintro _ ⟨⟩ x ⟨⟩
  | cons p ps ih =>
    obtain _ | ⟨s, ss⟩ := ss
    · rintro _ ⟨⟩ x ⟨⟩
    obtain ⟨hp, hps⟩ := List.forall_mem_cons.mp ht
    rw [simulateOthers.simulateFrom, Sampling.always_bind]
    refine (p.protocol.simulate_length s).mono ?_
    rintro (_ | run) hrun
    · rintro _ ⟨⟩
    · rw [Sampling.always_bind]
      refine (ih hps ss).mono ?_
      rintro (_ | runs) hruns
      · rintro _ ⟨⟩
      · rintro _ ⟨⟩
        rw [soundness_protocol, hp] at hrun
        exact List.forall_mem_cons.mpr ⟨⟨run, rfl, hrun run rfl⟩, hruns runs rfl⟩

/-- The simulated runs of all branches but one. -/
theorem simulateOthers_fit {ps : List (Prover E)} (ht : ∀ p ∈ ps, p.soundness = t)
    (ss : List (Statement E)) (i : Nat) :
    (simulateOthers ps ss i).Always fun result => ∀ runs, result = .ok runs → RunsFit t i runs := by
  induction ps generalizing ss i with
  | nil => cases i <;> rintro _ ⟨⟩ x ⟨⟩
  | cons p ps ih =>
    obtain _ | ⟨s, ss⟩ := ss
    · cases i <;> rintro _ ⟨⟩ x ⟨⟩
    obtain ⟨hp, hps⟩ := List.forall_mem_cons.mp ht
    cases i with
    | zero =>
      rw [simulateOthers, Sampling.always_bind]
      refine (simulateFrom_length hps ss).mono ?_
      rintro (_ | runs) hruns
      · rintro _ ⟨⟩
      · rintro _ ⟨⟩
        exact hruns runs rfl
    | succ i =>
      rw [simulateOthers, Sampling.always_bind]
      refine (p.protocol.simulate_length s).mono ?_
      rintro (_ | run) hrun
      · rintro _ ⟨⟩
      · rw [Sampling.always_bind]
        refine (ih hps ss i).mono ?_
        rintro (_ | runs) hruns
        · rintro _ ⟨⟩
        · rintro _ ⟨⟩
          rw [soundness_protocol, hp] at hrun
          exact List.forall_mem_cons.mpr ⟨⟨run, rfl, hrun run rfl⟩, hruns runs rfl⟩

/-- Branches that commit one after another, up to the first that fails. -/
theorem commitEach_sharesFit {ps : List (Prover E)} (hps : ∀ p ∈ ps, p.SharesFit t)
    (h : ∀ p ∈ ps, ∀ input, (p.commit input).Always fun x => x.2.SharesFit t)
    (ss : List (Statement E)) (ws : List Witness) :
    (commitEach ps ss ws).Always fun x => ∀ p ∈ x.2, p.SharesFit t := by
  induction ps generalizing ss ws with
  | nil => exact hps
  | cons p ps ih =>
    obtain _ | ⟨s, ss⟩ := ss
    · exact hps
    obtain _ | ⟨w, ws⟩ := ws
    · exact hps
    obtain ⟨-, hps⟩ := List.forall_mem_cons.mp hps
    obtain ⟨hp, hothers⟩ := List.forall_mem_cons.mp h
    rw [commitEach, Sampling.always_bind]
    refine (hp ⟨s, w⟩).mono ?_
    rintro ⟨_ | first, p'⟩ hp'
    · exact List.forall_mem_cons.mpr ⟨hp', hps⟩
    · rw [Sampling.always_bind]
      refine (ih hps hothers ss ws).mono fun x hx => ?_
      exact List.forall_mem_cons.mpr ⟨hp', hx⟩

theorem commitAt_sharesFit {ps : List (Prover E)}
    (h : ∀ p ∈ ps, ∀ input, (p.commit input).Always fun x => x.2.SharesFit t) (i : Nat)
    (input : Witnessed E) :
    (commitAt ps i input).Always fun x => ∀ p ∈ x.2, p.SharesFit t := by
  induction ps generalizing i with
  | nil => rintro p ⟨⟩
  | cons p ps ih =>
    obtain ⟨hp, hps⟩ := List.forall_mem_cons.mp h
    cases i with
    | zero =>
      rw [commitAt, Sampling.always_bind]
      refine (hp input).mono fun x hx => ?_
      exact List.forall_mem_cons.mpr ⟨hx, forall_resetAll_sharesFit ps⟩
    | succ i =>
      rw [commitAt, Sampling.always_bind]
      refine (ih hps i).mono fun x hx => ?_
      exact List.forall_mem_cons.mpr ⟨p.reset_sharesFit, hx⟩

/-- All challenges that a first message leaves to be kept have the right length. -/
theorem commit_sharesFit {p : Prover E} (hP : p.protocol.Uniform t) (hp : p.SharesFit t)
    (input : Witnessed E) : (p.commit input).Always fun x => x.2.SharesFit t := by
  induction p generalizing input with
  | leaf t' l pending =>
    rw [commit, Sampling.always_bind]
    refine Sampling.always_of_forall ?_
    rintro (_ | ⟨pending', first⟩)
    · exact .leaf t' l none
    · exact .leaf t' l (some pending')
  | adapted conversion p ih =>
    obtain _ | ⟨_, hP⟩ := hP
    obtain _ | ⟨_, hp⟩ := hp
    unfold commit
    split
    · exact .adapted conversion p.reset_sharesFit
    · rw [Sampling.always_bind]
      exact (ih hP hp _).mono fun x hx => .adapted conversion hx
  | all t' isPending bs ih =>
    obtain _ | _ | ⟨_, hbs⟩ := hP
    obtain _ | _ | ⟨_, _, hfits⟩ := hp
    have hcommit (b : Prover E) (hb : b ∈ bs) (input : Witnessed E) :=
      ih b hb (hbs _ (mem_protocols hb)) (hfits b hb) input
    unfold commit
    split
    · exact .all t false (forall_resetAll_sharesFit bs)
    · rw [Sampling.always_bind]
      refine (commitEach_sharesFit hfits hcommit _ _).mono ?_
      rintro ⟨_ | firsts, bs'⟩ hbs'
      · exact .all t false (forall_resetAll_sharesFit bs')
      · exact .all t true hbs'
  | any t' pending bs ih =>
    obtain _ | _ | _ | ⟨_, hbs⟩ := hP
    obtain _ | _ | _ | ⟨_, _, hfits⟩ := hp
    have hcommit (b : Prover E) (hb : b ∈ bs) (input : Witnessed E) :=
      ih b hb (hbs _ (mem_protocols hb)) (hfits b hb) input
    have ht (b : Prover E) (hb : b ∈ bs) : b.soundness = t := by
      rw [← soundness_protocol]
      exact (hbs _ (mem_protocols hb)).soundness_eq
    have hreset := sharesFit_any_none t (t := t) (forall_resetAll_sharesFit bs)
    unfold commit
    split
    · exact hreset
    · rw [Sampling.always_bind]
      -- The simulators draw challenges for their own parameters, which are all `t`.
      refine (simulateOthers_fit ht _ _).mono ?_
      rintro (_ | runs) hruns
      · exact hreset
      · rw [Sampling.always_bind]
        refine (commitAt_sharesFit hcommit _ _).mono ?_
        rintro ⟨_ | first, bs'⟩ hbs'
        · exact sharesFit_any_none t hbs'
        · refine .any t ?_ hbs'
          rintro _ ⟨⟩
          exact orPending_sharesFit (hruns runs rfl)

/-! ## After any call -/

/-- A prover stays a prover of its protocol, whatever it is called for and whatever its state is. -/
theorem step_protocol (p : Prover E) (call : Call E) :
    (p.step call).Always fun x => x.2.protocol = p.protocol := by
  cases call with
  | commit input =>
    rw [Prover.step, Sampling.always_bind]
    exact (commit_phase p input).mono fun x h => h.1
  | respond c => exact (p.respond_keeps (t := p.soundness) c).protocol_eq
  | reset => exact p.protocol_reset

/-- All parts of the prover have the soundness parameter `t`, and what is kept fits. -/
structure Fits (t : Soundness) (p : Prover E) : Prop where
  uniform : p.protocol.Uniform t
  shares : p.SharesFit t

theorem Fits.step {p : Prover E} (h : p.Fits t) (call : Call E) :
    (p.step call).Always fun x => x.2.Fits t := by
  have hshares : (p.step call).Always fun x => x.2.SharesFit t := by
    cases call with
    | commit input =>
      rw [Prover.step, Sampling.always_bind]
      exact commit_sharesFit h.uniform h.shares input
    | respond c => exact (p.respond_keeps c).fits h.shares
    | reset => exact p.reset_sharesFit
  exact ((p.step_protocol call).and hshares).mono fun x hx => ⟨hx.1 ▸ h.uniform, hx.2⟩

/-- After any run, what is kept fits. -/
theorem Fits.run {p : Prover E} (h : p.Fits t) (calls : List (Call E)) :
    (p.run calls).Always fun x => x.2.Fits t := by
  induction calls generalizing p with
  | nil => exact h
  | cons call calls ih =>
    simp only [Prover.run, Sampling.always_bind]
    refine (h.step call).mono fun x h' => ?_
    exact (ih h').mono fun _ hfits => hfits

end Prover

end SigmaProofs
