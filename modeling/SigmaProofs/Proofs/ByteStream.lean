import SigmaProofs.Proofs.Completeness
import SigmaProofs.Proofs.Prover.Shares
import SigmaProofs.Proofs.Verifier.History
import SigmaProofs.Sampling.ByteStream

/-!
# Runs on a stream of bytes

Provers, verifiers and simulators only ask for random values that there are: the orders of their
groups are not zero, and keys have units. So everything that always holds of them holds of their
runs on every stream of bytes.

* `Leaf.commit_answerable`, `Leaf.simulate_answerable`: basic protocols, on whatever input.
* `Protocol.simulateWith_answerable`, `Prover.commit_answerable`: all trees, with any operations on
  challenges and in any state.
* `Prover.holds_on_stream`, `Verifier.holds_on_stream`: what always holds of the outcomes of calls
  and of what they leave holds on every stream.
* `Prover.convinces_on_stream`, `Protocol.simulates_on_stream`: a prover with a witness convinces,
  and a simulator gives an accepted run.
-/

namespace SigmaProofs

open Sampling

variable {E : Type}

/-! ## Basic protocols -/

theorem PrimeGroup.drawExponent_answerable {G : PrimeGroup E} (h : 0 < G.order) :
    G.drawExponent.Answerable :=
  answerable_drawBelow h

theorem DamgardJurik.Key.drawUnit_answerable (key : Key) : key.drawUnit.Answerable := by
  rw [Key.drawUnit_def]
  exact answerable_drawUnit key.one_lt_n

namespace Leaf

variable {l : Leaf E} (hG : ∀ G ∈ l.group?.toList, 0 < G.order) (t : Soundness)

include hG

theorem commit_answerable (input : Witnessed E) : (l.commit t input).Answerable := by
  cases l with
  | dlog G | dhTuple G | dhExtended G =>
    have hdraw := PrimeGroup.drawExponent_answerable (hG G (by simp [group?]))
    rw [commit]
    split
    · exact answerable_pure _
    · exact hdraw.bind fun r => answerable_pure _
  | opening G =>
    have hdraw := PrimeGroup.drawExponent_answerable (hG G (by simp [group?]))
    rw [commit]
    split
    · exact answerable_pure _
    · exact hdraw.bind fun alpha => hdraw.bind fun beta => answerable_pure _
  | encryptedZero =>
    rw [commit_encryptedZero_def]
    split
    · exact answerable_pure _
    · rename_i key r _
      exact key.drawUnit_answerable.bind fun rho => answerable_pure _
  | product =>
    rw [commit_product_def]
    split
    · exact answerable_pure _
    · rename_i key c2 x1 r1 r2 r3 _
      split
      · exact answerable_pure _
      · have hdraw := key.drawUnit_answerable
        exact (answerable_drawBelow key.plaintextModulus_pos).bind fun d =>
          hdraw.bind fun rho => hdraw.bind fun rhoBar => answerable_pure _

theorem simulateMessages_answerable (s : Statement E) (e : Nat) :
    (l.simulateMessages t s e).Answerable := by
  cases l with
  | dlog G | dhTuple G | dhExtended G =>
    have hdraw := PrimeGroup.drawExponent_answerable (hG G (by simp [group?]))
    rw [simulateMessages]
    split
    · exact answerable_pure _
    · exact hdraw.bind fun z => answerable_pure _
  | opening G =>
    have hdraw := PrimeGroup.drawExponent_answerable (hG G (by simp [group?]))
    rw [simulateMessages]
    split
    · exact answerable_pure _
    · exact hdraw.bind fun u => hdraw.bind fun v => answerable_pure _
  | encryptedZero =>
    rw [simulateMessages_encryptedZero_def]
    split
    · exact answerable_pure _
    · rename_i key c _
      exact key.drawUnit_answerable.bind fun z => answerable_pure _
  | product =>
    rw [simulateMessages_product_def]
    split
    · exact answerable_pure _
    · rename_i key c1 c2 c3 _
      have hdraw := key.drawUnit_answerable
      exact (answerable_drawBelow key.plaintextModulus_pos).bind fun z1 =>
        hdraw.bind fun z2 => hdraw.bind fun z3 => answerable_pure _

theorem simulate_answerable (s : Statement E) (c : Bytes) : (l.simulate t s c).Answerable := by
  unfold simulate
  split
  · exact answerable_pure _
  · refine (simulateMessages_answerable hG t s _).bind fun result => ?_
    cases result <;> exact answerable_pure _

end Leaf

/-! ## Simulators -/

namespace Protocol

theorem drawChallenges_answerable (t : Soundness) (n : Nat) : (t.drawChallenges n).Answerable := by
  induction n with
  | zero => exact answerable_pure _
  | succ n ih =>
    exact (answerable_drawBytes _).bind fun challenge => ih.bind fun rest => answerable_pure _

theorem simulateEach_answerable {bs : List (Protocol E)} {ops : ChallengeOps}
    (h : ∀ b ∈ bs, ∀ s c, (b.simulateWith s c ops).Answerable) (ss : List (Statement E))
    (cs : List Bytes) : (simulateEach bs ss cs ops).Answerable := by
  induction bs generalizing ss cs with
  | nil => exact answerable_pure _
  | cons b bs ih =>
    obtain _ | ⟨s, ss⟩ := ss
    · exact answerable_pure _
    obtain _ | ⟨c, cs⟩ := cs
    · exact answerable_pure _
    obtain ⟨hb, hbs⟩ := List.forall_mem_cons.mp h
    simp only [simulateEach]
    refine (hb s c).bind ?_
    rintro (err | run)
    · exact answerable_pure _
    · refine (ih hbs ss cs).bind ?_
      rintro (err | runs) <;> exact answerable_pure _

theorem simulateWith_answerable {P : Protocol E} (hG : ∀ G ∈ P.groups, 0 < G.order)
    (s : Statement E) (c : Bytes) (ops : ChallengeOps) : (P.simulateWith s c ops).Answerable := by
  induction P generalizing s c with
  | leaf t l => exact Leaf.simulate_answerable hG t s c
  | adapted conversion P ih =>
    simp only [simulateWith]
    split
    · exact answerable_pure _
    · exact ih (fun G hG' => hG G (List.mem_append_right _ hG')) _ c
  | all t bs ih =>
    have hbs := fun b hb => ih b hb (forall_groups_of_mem hG hb)
    simp only [simulateWith]
    split
    · exact answerable_pure _
    · split
      · exact answerable_pure _
      · exact (simulateEach_answerable hbs _ _).bind fun runs => answerable_pure _
  | any t bs ih =>
    have hbs := fun b hb => ih b hb (forall_groups_of_mem hG hb)
    simp only [simulateWith]
    split
    · exact answerable_pure _
    · split
      · exact answerable_pure _
      · refine (drawChallenges_answerable t _).bind fun drawn => ?_
        split
        · exact answerable_pure _
        · exact (simulateEach_answerable hbs _ _).bind fun runs => answerable_pure _

theorem simulate_answerable {P : Protocol E} (hG : ∀ G ∈ P.groups, 0 < G.order) (s : Statement E)
    (ops : ChallengeOps) : (P.simulate s ops).Answerable :=
  (answerable_drawBytes _).bind fun c => simulateWith_answerable hG s c ops

end Protocol

/-! ## Provers -/

namespace Prover

variable {ops : ChallengeOps}

theorem simulateFrom_answerable {ps : List (Prover E)}
    (hG : ∀ p ∈ ps, ∀ G ∈ p.protocol.groups, 0 < G.order) (ss : List (Statement E)) :
    (simulateOthers.simulateFrom ps ss ops).Answerable := by
  induction ps generalizing ss with
  | nil => exact answerable_pure _
  | cons p ps ih =>
    obtain _ | ⟨s, ss⟩ := ss
    · exact answerable_pure _
    obtain ⟨hp, hps⟩ := List.forall_mem_cons.mp hG
    simp only [simulateOthers.simulateFrom]
    refine (Protocol.simulate_answerable hp s ops).bind ?_
    rintro (err | run)
    · exact answerable_pure _
    · refine (ih hps ss).bind ?_
      rintro (err | runs) <;> exact answerable_pure _

theorem simulateOthers_answerable {ps : List (Prover E)}
    (hG : ∀ p ∈ ps, ∀ G ∈ p.protocol.groups, 0 < G.order) (ss : List (Statement E)) (i : Nat) :
    (simulateOthers ps ss i ops).Answerable := by
  induction ps generalizing ss i with
  | nil => exact answerable_pure _
  | cons p ps ih =>
    obtain _ | ⟨s, ss⟩ := ss
    · exact answerable_pure _
    obtain ⟨hp, hps⟩ := List.forall_mem_cons.mp hG
    cases i with
    | zero =>
      simp only [simulateOthers]
      refine (simulateFrom_answerable hps ss).bind ?_
      rintro (err | runs) <;> exact answerable_pure _
    | succ i =>
      simp only [simulateOthers]
      refine (Protocol.simulate_answerable hp s ops).bind ?_
      rintro (err | run)
      · exact answerable_pure _
      · refine (ih hps ss i).bind ?_
        rintro (err | runs) <;> exact answerable_pure _

theorem commitEach_answerable {ps : List (Prover E)}
    (h : ∀ p ∈ ps, ∀ input, (p.commit input ops).Answerable) (ss : List (Statement E))
    (ws : List Witness) : (commitEach ps ss ws ops).Answerable := by
  induction ps generalizing ss ws with
  | nil => exact answerable_pure _
  | cons p ps ih =>
    obtain _ | ⟨s, ss⟩ := ss
    · exact answerable_pure _
    obtain _ | ⟨w, ws⟩ := ws
    · exact answerable_pure _
    obtain ⟨hp, hps⟩ := List.forall_mem_cons.mp h
    simp only [commitEach]
    refine (hp ⟨s, w⟩).bind ?_
    rintro ⟨err | first, p'⟩
    · exact answerable_pure _
    · exact (ih hps ss ws).bind fun rest => answerable_pure _

theorem commitAt_answerable {ps : List (Prover E)}
    (h : ∀ p ∈ ps, ∀ input, (p.commit input ops).Answerable) (i : Nat) (input : Witnessed E) :
    (commitAt ps i input ops).Answerable := by
  induction ps generalizing i with
  | nil => exact answerable_pure _
  | cons p ps ih =>
    obtain ⟨hp, hps⟩ := List.forall_mem_cons.mp h
    cases i with
    | zero => exact (hp input).bind fun result => answerable_pure _
    | succ i => exact (ih hps i).bind fun result => answerable_pure _

theorem commit_answerable {p : Prover E} (hG : ∀ G ∈ p.protocol.groups, 0 < G.order)
    (input : Witnessed E) : (p.commit input ops).Answerable := by
  induction p generalizing input with
  | leaf t l pending =>
    rw [commit]
    refine (Leaf.commit_answerable hG t input).bind ?_
    rintro (err | ⟨pending, first⟩) <;> exact answerable_pure _
  | adapted conversion p ih =>
    rw [commit]
    split
    · exact answerable_pure _
    · exact (ih (fun G hG' => hG G (List.mem_append_right _ hG')) _).bind fun result =>
        answerable_pure _
  | all t isPending bs ih =>
    have hbs := fun b hb => ih b hb (Protocol.forall_groups_of_mem hG (mem_protocols hb))
    rw [commit]
    split
    · exact answerable_pure _
    · refine (commitEach_answerable hbs _ _).bind ?_
      rintro ⟨err | firsts, bs'⟩ <;> exact answerable_pure _
  | any t pending bs ih =>
    have hgroups := fun b hb => Protocol.forall_groups_of_mem hG (mem_protocols (p := b) hb)
    rw [commit]
    split
    · exact answerable_pure _
    · refine (simulateOthers_answerable hgroups _ _).bind ?_
      rintro (err | runs)
      · exact answerable_pure _
      · refine (commitAt_answerable (fun b hb => ih b hb (hgroups b hb)) _ _).bind ?_
        rintro ⟨err | first, bs'⟩ <;> exact answerable_pure _

/-- Calls keep the groups of a prover, so none of them asks for what there is not. -/
theorem run_answerable {p : Prover E} (hG : ∀ G ∈ p.protocol.groups, 0 < G.order)
    (calls : List (Call E)) : (p.run calls).Answerable := by
  induction calls generalizing p with
  | nil => exact answerable_pure _
  | cons call calls ih =>
    have hstep : (p.step call).Answerable := by
      cases call with
      | commit input => exact (commit_answerable hG input).bind fun x => answerable_pure _
      | respond c => exact answerable_pure _
      | reset => exact answerable_pure _
    refine hstep.bind_always (p.step_protocol call) fun x hprotocol => ?_
    exact (ih (hprotocol ▸ hG)).bind fun y => answerable_pure _

end Prover

/-! ## Verifiers -/

/-- All that a verifier draws are challenges. -/
theorem Verifier.run_answerable [DecidableEq E] (v : Verifier E) (calls : List (Call E)) :
    (v.run calls).Answerable := by
  induction calls generalizing v with
  | nil => exact answerable_pure _
  | cons call calls ih =>
    have hstep : (v.step call).Answerable := by
      cases call with
      | draw =>
        refine Answerable.bind ?_ fun x => answerable_pure _
        exact (answerable_drawBytes _).bind fun c => answerable_pure _
      | keep c =>
        simp only [step]
        split <;> exact answerable_pure _
      | reset => exact answerable_pure _
      | verify s first second => exact answerable_pure _
    exact hstep.bind fun x => (ih x.2).bind fun y => answerable_pure _

/-! ## On a stream -/

/-- What holds of a prover after any calls, for all that it may draw, holds on every stream. -/
theorem Prover.holds_on_stream {p : Prover E} (hG : ∀ G ∈ p.protocol.groups, G.Lawful)
    {calls : List (Call E)} {Q : List Outcome × Prover E → Prop} (hQ : (p.run calls).Always Q)
    (stream : ByteStream) : Q ((p.run calls).run stream).1 :=
  hQ.run (run_answerable (fun G hmem => (hG G hmem).order_prime.pos) calls) stream

variable [DecidableEq E]

theorem Verifier.holds_on_stream {v : Verifier E} {calls : List (Call E)}
    {Q : List Outcome × Verifier E → Prop} (hQ : (v.run calls).Always Q) (stream : ByteStream) :
    Q ((v.run calls).run stream).1 :=
  hQ.run (v.run_answerable calls) stream

/-- On every stream of bytes, a prover with a witness commits, and what is left of it has an
accepted response to every challenge. -/
theorem Prover.convinces_on_stream {P : Protocol E} (hP : P.Constructible)
    (hG : ∀ G ∈ P.groups, G.Lawful) {s : Statement E} {w : Witness} (hs : P.Suits s)
    (hw : P.Proves s w) {p : Prover E} (hp : p.protocol = P) (stream : ByteStream) :
    ∃ first p', ((p.commit ⟨s, w⟩).run stream).1 = (.ok first, p') ∧ p'.Convinces P s first := by
  have hG' : ∀ G ∈ p.protocol.groups, 0 < G.order := fun G hmem =>
    (hG G (hp ▸ hmem)).order_prime.pos
  obtain ⟨first, hfirst, hconv⟩ :=
    (Protocol.complete hP.uniform hG hs hw p hp).run (commit_answerable hG' _) stream
  exact ⟨first, _, Prod.ext hfirst rfl, hconv⟩

/-- On every stream of bytes, a simulator gives an accepted run with its challenge. -/
theorem Protocol.simulates_on_stream {P : Protocol E} (hP : P.Constructible)
    (hG : ∀ G ∈ P.groups, G.Lawful) {s : Statement E} (hs : P.Suits s) {c : Bytes}
    (hc : c.length = P.soundness.byteLength) (stream : ByteStream) :
    P.SimulatedRun s c ((P.simulateWith s c).run stream).1 :=
  (simulateWith_accepted hP.uniform hG hs c hc).run
    (simulateWith_answerable (fun G hmem => (hG G hmem).order_prime.pos) s c .plain) stream

end SigmaProofs
