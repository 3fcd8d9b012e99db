import Mathlib.Logic.Function.Basic
import SigmaProofs.FiatShamir
import SigmaProofs.Proofs.Completeness
import SigmaProofs.Proofs.Prover.History
import SigmaProofs.Proofs.Verifier.History

/-!
# Proofs on one transcript

Prover and verifier take the same messages into their transcripts and draw the same challenges from
them, so that several proofs can be made on one transcript and checked in the same order on another.

* `Proof.create_fresh`, `Proof.verify_holding`: whatever becomes of a proof, its prover and its
  verifier are as good as new afterwards.
* `Proof.create_accepted`: a proof of a true statement is made and accepted, and both transcripts
  are the same afterwards.
* `createEach_accepted`: so it is for the proofs of several parties, which may be called for
  anything else in between.
-/

namespace SigmaProofs

variable {E : Type}

/-! ## Challenges from a transcript -/

theorem Strobe.squeeze_length (s : Strobe) (n : Nat) : (s.squeeze n).1.length = n := by
  induction n generalizing s with
  | zero => rfl
  | succ n ih => simp only [squeeze, List.length_cons, ih]

theorem Transcript.challengeFor_length (tr : Transcript) (G : PrimeGroup E) (t : Soundness)
    (statement : Statement E) (first : Message) :
    (tr.challengeFor G t statement first).1.length = t.byteLength :=
  Strobe.squeeze_length ..

/-! ## One proof -/

namespace Proof

/-- Whether a proof is made or not, a prover in any phase keeps nothing for another response. -/
theorem create_fresh {P : Protocol E} (hP : P.Constructible) {p : Prover E} (hp : p.protocol = P)
    (G : PrimeGroup E) (input : Witnessed E) (tr : Transcript) :
    (create G p input tr).Always fun (_, p', _) => p' = .ofProtocol P := by
  simp only [create, Sampling.always_bind]
  refine (p.commit_phase input).mono ?_
  rintro ⟨err | first, p'⟩ ⟨hprotocol, hready, hidle⟩
  · show p' = .ofProtocol P
    rw [← hp, ← hprotocol]
    exact hidle err rfl
  · have hp' : p'.protocol = P := hprotocol.trans hp
    have hresponds := Prover.respond_of_ready (hp' ▸ hP.uniform) (hready first rfl)
      (tr.challengeFor G p'.soundness input.statement first).1
    show (p'.respond _).2 = .ofProtocol P
    rw [hresponds.fresh, hp']

variable [DecidableEq E]

/-- The challenge of a proof replaces one that was held before, and is taken by the verdict. -/
theorem verify_holding (proof : Proof) (G : PrimeGroup E) (P : Protocol E) (held : Option Bytes)
    (statement : Statement E) (tr : Transcript) :
    proof.verify G (.holding P held) statement tr =
      (P.verdict (tr.challengeFor G P.soundness statement proof.first).1 statement proof.first
        proof.second, .ofProtocol P,
        (tr.challengeFor G P.soundness statement proof.first).2) := by
  have hreq := requireChallenge_ok
    (tr.challengeFor_length G P.soundness statement proof.first)
  have hfst := Verifier.verify_fst (v := .holding P (some
    (tr.challengeFor G P.soundness statement proof.first).1)) (by rw [Verifier.challenge,
      Verifier.slot_holding]) statement proof.first proof.second
  have hsnd := Verifier.verify_holding P
    (some (tr.challengeFor G P.soundness statement proof.first).1) statement proof.first
    proof.second
  simp only [verify, Verifier.soundness, Verifier.slot_holding, Verifier.keepChallenge_holding,
    hreq, Except.map, hfst, hsnd, Verifier.protocol_holding]

/-- A proof of a true statement is accepted by a verifier whose transcript is in the same state, and
leaves it in the same state. -/
theorem create_accepted {P : Protocol E} {input : Witnessed E}
    (hinput : P.Complete input.statement input.witness) {p : Prover E} (hp : p.protocol = P)
    (G : PrimeGroup E) (tr : Transcript) :
    (create G p input tr).Always fun (result, _, tr') => ∃ proof, result = .ok proof ∧
      ∀ held, proof.verify G (.holding P held) input.statement tr =
        (.ok true, .ofProtocol P, tr') := by
  simp only [create, Sampling.always_bind]
  refine ((hinput p hp).and (p.commit_phase input)).mono ?_
  rintro ⟨_, p'⟩ ⟨⟨first, rfl, hconvinces⟩, hprotocol, -, -⟩
  have ht : p'.soundness = P.soundness := by rw [← p'.soundness_protocol, hprotocol, hp]
  obtain ⟨second, hsecond, haccepted⟩ := hconvinces
    (tr.challengeFor G P.soundness input.statement first).1 (tr.challengeFor_length ..)
  refine ⟨⟨first, second⟩, ?_, fun held => ?_⟩
  · show (p'.respond (tr.challengeFor G p'.soundness input.statement first).1).1.map _ = _
    rw [ht, hsecond]
    rfl
  · show Proof.verify _ G _ _ tr =
      (.ok true, .ofProtocol P, (tr.challengeFor G p'.soundness input.statement first).2)
    rw [verify_holding, ht, haccepted.verdict_eq]

end Proof

/-! ## Proofs one after another -/

/-- A proof among others. -/
structure Turn (ι E : Type) where
  /-- Who makes and checks it. -/
  party : ι
  /-- The group whose encodings the transcripts take in. -/
  group : PrimeGroup E
  input : Witnessed E
  /-- What the prover is called for before. -/
  proverCalls : List (Prover.Call E)
  /-- What the verifier is called for before. -/
  verifierCalls : List (Verifier.Call E)

section Chain

variable {ι : Type} [DecidableEq ι]

/-- Makes proofs on one transcript. For each of them: what became of it, and the prover and the
transcript afterwards. -/
def createEach (provers : ι → Prover E) (tr : Transcript) :
    List (Turn ι E) → Sampling (List (Except ProtocolError Proof × Prover E × Transcript))
  | [] => return []
  | turn :: turns => do
    let called ← (provers turn.party).run turn.proverCalls
    let made ← Proof.create turn.group called.2 turn.input tr
    let others ← createEach (Function.update provers turn.party made.2.1) made.2.2 turns
    return made :: others

variable [DecidableEq E]

/-- Checks proofs on one transcript. For each of them: the verdict, and the verifier and the
transcript afterwards. -/
def verifyEach (verifiers : ι → Verifier E) (tr : Transcript) :
    List (Turn ι E × Proof) → Sampling (List (Except ProtocolError Bool × Verifier E × Transcript))
  | [] => return []
  | (turn, proof) :: turns => do
    let called ← (verifiers turn.party).run turn.verifierCalls
    let checked := proof.verify turn.group called.2 turn.input.statement tr
    let others ← verifyEach (Function.update verifiers turn.party checked.2.1) checked.2.2 turns
    return checked :: others

variable {Ps : ι → Protocol E}

/-- Each proof leaves its prover and its verifier as good as new, and both transcripts in one state,
so the next proof finds everything as the first did. -/
theorem createEach_accepted (hP : ∀ i, (Ps i).Constructible) {turns : List (Turn ι E)}
    (hturns : ∀ turn ∈ turns, (Ps turn.party).Complete turn.input.statement turn.input.witness)
    (tr : Transcript) :
    (createEach (fun i => .ofProtocol (Ps i)) tr turns).Always fun made => ∃ proofs,
      made.map (·.1) = proofs.map .ok ∧ proofs.length = turns.length ∧
      (verifyEach (fun i => .ofProtocol (Ps i)) tr (turns.zip proofs)).Always fun checked =>
        checked.map (·.1) = turns.map (fun _ => .ok true) ∧
        checked.map (·.2.2) = made.map (·.2.2) := by
  induction turns generalizing tr with
  | nil => exact ⟨[], rfl, rfl, rfl, rfl⟩
  | cons turn turns ih =>
    obtain ⟨hturn, hothers⟩ := List.forall_mem_cons.mp hturns
    simp only [createEach, Sampling.always_bind]
    refine (((Prover.inStep_ofProtocol _).run (hP turn.party) turn.proverCalls)).mono ?_
    rintro ⟨outcomes, p⟩ hp
    refine ((Proof.create_fresh (hP turn.party) hp.protocol_eq turn.group turn.input tr).and
      (Proof.create_accepted hturn hp.protocol_eq turn.group tr)).mono ?_
    rintro ⟨_, p', tr'⟩ ⟨rfl, proof, rfl, haccepted⟩
    rw [Function.update_eq_self turn.party fun i => Prover.ofProtocol (Ps i)]
    refine (ih hothers tr').mono ?_
    rintro others ⟨proofs, hproofs, hlen, hchecked⟩
    refine ⟨proof :: proofs, by rw [List.map_cons, List.map_cons, hproofs], by simp [hlen], ?_⟩
    simp only [List.zip_cons_cons, verifyEach, Sampling.always_bind]
    refine (Verifier.settled_run ⟨none, (Verifier.holding_none _).symm⟩ turn.verifierCalls).mono ?_
    rintro ⟨outcomes', v⟩ ⟨held, rfl⟩
    simp only [haccepted]
    rw [Function.update_eq_self turn.party fun i => Verifier.ofProtocol (Ps i)]
    refine hchecked.mono ?_
    rintro checked ⟨hverdicts, htranscripts⟩
    exact ⟨by rw [List.map_cons, List.map_cons, hverdicts],
      by rw [List.map_cons, List.map_cons, htranscripts]⟩

/-- Proofs of true statements, made one after another on one transcript and checked in the same
order on another that began in the same state, are all accepted, and after each of them the
transcripts are in one state again. Before each proof its prover and its verifier may be called for anything.
Whether a proof is made or not, its prover keeps nothing, and whatever the verdict on a proof is,
its verifier keeps no challenge. -/
theorem proofs_accepted (Ps : ι → Protocol E) (hP : ∀ i, (Ps i).Constructible) :
    (∀ i calls G input tr, ((Prover.ofProtocol (Ps i)).run calls).Always fun called =>
      (Proof.create G called.2 input tr).Always fun made =>
        made.2.1.hasPending = false ∧ made.2.1 = .ofProtocol (Ps i)) ∧
    (∀ i calls, ((Verifier.ofProtocol (Ps i)).run calls).Always fun called =>
      ∀ (proof : Proof) G statement tr,
        (proof.verify G called.2 statement tr).2.1.challenge = none ∧
        (proof.verify G called.2 statement tr).2.1 = .ofProtocol (Ps i)) ∧
    ((∀ i, ∀ G ∈ (Ps i).groups, G.Lawful) → ∀ turns : List (Turn ι E),
      (∀ turn ∈ turns, (Ps turn.party).Suits turn.input.statement ∧
        (Ps turn.party).Proves turn.input.statement turn.input.witness) →
      ∀ tr, (createEach (fun i => .ofProtocol (Ps i)) tr turns).Always fun made => ∃ proofs,
        made.map (·.1) = proofs.map .ok ∧ proofs.length = turns.length ∧
        (verifyEach (fun i => .ofProtocol (Ps i)) tr (turns.zip proofs)).Always fun checked =>
          checked.map (·.1) = turns.map (fun _ => .ok true) ∧
          checked.map (·.2.2) = made.map (·.2.2)) := by
  refine ⟨fun i calls G input tr => ?_, fun i calls => ?_, fun hG turns hturns tr => ?_⟩
  · refine ((Prover.inStep_ofProtocol (Ps i)).run (hP i) calls).mono fun called hcalled => ?_
    refine (Proof.create_fresh (hP i) hcalled.protocol_eq G input tr).mono ?_
    rintro ⟨result, p', tr'⟩ rfl
    exact ⟨Prover.hasPending_ofProtocol _, rfl⟩
  · refine (Verifier.settled_run ⟨none, (Verifier.holding_none _).symm⟩ calls).mono ?_
    rintro ⟨outcomes, v⟩ ⟨held, rfl⟩ proof G statement tr
    rw [Proof.verify_holding]
    exact ⟨Verifier.challenge_ofProtocol _, rfl⟩
  · exact createEach_accepted hP (fun turn hturn => Protocol.complete (hP turn.party).uniform
      (hG turn.party) (hturns turn hturn).1 (hturns turn hturn).2) tr

/-- Two proofs of one party. Before the first, the prover is in an unfinished run; before the
second, the verifier holds a challenge of its own. -/
def smallTurns : List (Turn Unit Nat) :=
  let input : Witnessed Nat := ⟨Protocol.smallStatement, Protocol.smallWitness⟩
  let G := SchnorrGroup.small.toPrimeGroup
  [⟨(), G, input, [.commit input], []⟩, ⟨(), G, input, [], [.draw, .keep [5]]⟩]

theorem proofs_accepted_smallTree :
    (createEach (fun _ => .ofProtocol Protocol.smallTree) (.ofLabel "test") smallTurns).Always
      fun made => ∃ proofs, made.map (·.1) = proofs.map .ok ∧ proofs.length = 2 ∧
        (verifyEach (fun _ => .ofProtocol Protocol.smallTree) (.ofLabel "test")
          (smallTurns.zip proofs)).Always fun checked =>
            checked.map (·.1) = [.ok true, .ok true] ∧ checked.map (·.2.2) = made.map (·.2.2) := by
  refine (proofs_accepted (fun _ : Unit => Protocol.smallTree)
    fun _ => Protocol.smallTree_constructible).2.2 (fun _ => Protocol.smallTree_lawful) smallTurns
    (fun turn hturn => ?_) (.ofLabel "test")
  have hinput : turn.input = ⟨Protocol.smallStatement, Protocol.smallWitness⟩ := by
    rcases hturn with _ | ⟨_, _ | ⟨_, h⟩⟩
    · rfl
    · rfl
    · cases h
  rw [hinput]
  exact ⟨Protocol.smallTree_suits, Protocol.smallTree_proves⟩

end Chain

end SigmaProofs
