import SigmaProofs.Proofs.Verdict

/-!
# Histories of a verifier

A verifier is called any number of times, in any order, with any arguments.

* `Verifier.run`: what the calls give, and the verifier that is left.
* `Verifier.holding P challenge`: the verifiers in which nothing but the slot of the whole holds a
  challenge. Each call leads from one of them to another (`settled_step`), and so does every run
  (`settled_run`).
* `Verifier.verify_holding`: a verdict leaves no challenge anywhere in the tree.
-/

namespace SigmaProofs.Verifier

variable {E : Type}

/-- A call of a verifier. -/
inductive Call (E : Type) where
  | draw
  | keep (challenge : Bytes)
  | reset
  | verify (statement : Statement E) (first second : Message)

/-- What a call gave. -/
inductive Outcome where
  | drawn (challenge : Bytes)
  | kept (result : Except Deviation Unit)
  | erased
  | judged (verdict : Except ProtocolError Bool)

def step [DecidableEq E] (v : Verifier E) (call : Call E) (ops : ChallengeOps := .plain) :
    Sampling (Outcome × Verifier E) :=
  match call with
  | .draw => do
    let (challenge, v') ← v.drawChallenge
    return (.drawn challenge, v')
  | .keep challenge =>
    match v.keepChallenge challenge with
    | .error fault => return (.kept (.error fault), v)
    | .ok v' => return (.kept (.ok ()), v')
  | .reset => return (.erased, v.reset)
  | .verify statement first second =>
    let (verdict, v') := v.verify statement first second ops
    return (.judged verdict, v')

/-- The outcomes of several calls, in order, and the verifier that is left. -/
def run [DecidableEq E] (v : Verifier E) (calls : List (Call E)) (ops : ChallengeOps := .plain) :
    Sampling (List Outcome × Verifier E) :=
  match calls with
  | [] => return ([], v)
  | call :: calls => do
    let (outcome, v') ← v.step call ops
    let (outcomes, v'') ← v'.run calls ops
    return (outcome :: outcomes, v'')

/-! ## Only the whole holds a challenge -/

/-- A verifier whose branches hold no challenge. -/
def holding (P : Protocol E) (challenge : Option Bytes) : Verifier E :=
  (ofProtocol P).withSlot ⟨P.soundness, challenge⟩

@[simp] theorem slot_holding (P : Protocol E) (challenge : Option Bytes) :
    (holding P challenge).slot = ⟨P.soundness, challenge⟩ :=
  slot_withSlot ..

@[simp] theorem soundness_ofProtocol (P : Protocol E) :
    (ofProtocol P).soundness = P.soundness := by
  rw [← soundness_protocol, protocol_ofProtocol]

/-- A new verifier. -/
@[simp] theorem holding_none (P : Protocol E) : holding P none = ofProtocol P := by
  have hslot : (ofProtocol P).slot = ⟨P.soundness, none⟩ := by
    rw [← soundness_ofProtocol P, ← challenge_ofProtocol P]
    rfl
  rw [holding, ← hslot, withSlot_slot]

@[simp] theorem protocol_holding (P : Protocol E) (challenge : Option Bytes) :
    (holding P challenge).protocol = P := by
  rw [holding, protocol_withSlot _ (soundness_ofProtocol P).symm, protocol_ofProtocol]

theorem withSlot_holding (P : Protocol E) (challenge challenge' : Option Bytes) :
    (holding P challenge).withSlot ⟨P.soundness, challenge'⟩ = holding P challenge' :=
  withSlot_withSlot ..

theorem put_holding (P : Protocol E) (held : Option Bytes) (challenge : Bytes) :
    (holding P held).put challenge = holding P (some challenge) := by
  rw [put, slot_holding, ChallengeSlot.put, withSlot_holding]

theorem ofProtocols_eq_map (Ps : List (Protocol E)) : ofProtocols Ps = Ps.map ofProtocol := by
  induction Ps with
  | nil => rfl
  | cons P Ps ih => rw [ofProtocols, ih, List.map_cons]

theorem keepChallenge_holding (P : Protocol E) (held : Option Bytes) (challenge : Bytes) :
    (holding P held).keepChallenge challenge =
      (P.soundness.requireChallenge challenge).map fun _ => holding P (some challenge) := by
  rw [keepChallenge, soundness, slot_holding, put_holding]
  cases P.soundness.requireChallenge challenge <;> rfl

mutual

/-- Forgetting all challenges leaves a new verifier, whatever was held. -/
theorem reset_eq : ∀ v : Verifier E, v.reset = ofProtocol v.protocol
  | .leaf .. => rfl
  | .adapted c inner => congrArg (adapted c) (reset_eq inner)
  | .all slot branches => congrArg (all slot.clear) (resetAll_eq branches)
  | .any slot branches => congrArg (any slot.clear) (resetAll_eq branches)

theorem resetAll_eq : ∀ vs : List (Verifier E), resetAll vs = ofProtocols (protocols vs)
  | [] => rfl
  | v :: vs => by rw [resetAll, protocols, ofProtocols, reset_eq v, resetAll_eq vs]

end

/-! ## Verdicts -/

section Verdicts

variable [DecidableEq E]

/-- Branches are given their challenges and give them up for their verdicts, so that none is left,
wherever the verdicts end: those that were asked have taken theirs, and the others got none. -/
theorem verifyEach_ofProtocols {Ps : List (Protocol E)}
    (h : ∀ P ∈ Ps, ∀ held s f z, ((holding P held).verify s f z).2 = ofProtocol P)
    {cs : List Bytes} {ss : List (Statement E)} {fs zs : List Message} :
    (verifyEach (ofProtocols Ps) cs ss fs zs).2 = ofProtocols Ps := by
  have hkeeps : ((verifyEach (ofProtocols Ps) cs ss fs zs).2).map id = (ofProtocols Ps).map id := by
    refine verifyEach_keeps fun v hv c s f z => ?_
    obtain ⟨P, hP, rfl⟩ := List.mem_map.mp (ofProtocols_eq_map Ps ▸ hv)
    rw [← holding_none, put_holding, holding_none]
    exact h P hP (some c) s f z
  simpa using hkeeps

/-- A verdict takes the challenge, and leaves nothing of those that branches were given, wherever
it ends. -/
theorem verify_holding (P : Protocol E) (held : Option Bytes) (statement : Statement E)
    (first second : Message) :
    ((holding P held).verify statement first second).2 = ofProtocol P := by
  induction P generalizing held statement first second with
  | leaf t l =>
    show (verify (leaf ⟨t, held⟩ l) statement first second).2 = _
    rw [verify]
    cases held <;> rfl
  | adapted conversion P ih =>
    show (verify (adapted conversion (holding P held)) statement first second).2 = _
    rw [verify]
    cases conversion.apply statement with
    | error err =>
      show adapted conversion (holding P held).reset = _
      rw [reset_eq, protocol_holding, ofProtocol]
    | ok statement => exact congrArg (adapted conversion) (ih held statement first second)
  | all t bs ih =>
    show (verify (all ⟨t, held⟩ (ofProtocols bs)) statement first second).2 = _
    rw [verify]
    split
    · rename_i hheld
      cases hheld
      rfl
    split
    · rfl
    · rfl
    · exact congrArg (all (.empty t)) (verifyEach_ofProtocols ih)
  | any t bs ih =>
    show (verify (any ⟨t, held⟩ (ofProtocols bs)) statement first second).2 = _
    rw [verify]
    split
    · rename_i hheld
      cases hheld
      rfl
    split
    · rfl
    · rfl
    · rw [ChallengeOps.addAll_plain]
      exact congrArg (any (.empty t)) (verifyEach_ofProtocols ih)

/-! ## Calls -/

/-- Nothing but the slot of the whole holds a challenge. -/
def Settled (P : Protocol E) (v : Verifier E) : Prop := ∃ challenge, v = holding P challenge

/-- Each call leaves the branches without a challenge. -/
theorem settled_step {P : Protocol E} {v : Verifier E} (h : Settled P v) (call : Call E) :
    (v.step call).Always fun x => Settled P x.2 := by
  obtain ⟨held, rfl⟩ := h
  cases call with
  | draw =>
    simp only [step, drawChallenge, put_holding, Sampling.always_bind]
    exact Sampling.always_of_forall fun c => ⟨some c, rfl⟩
  | keep c =>
    simp only [step, keepChallenge_holding]
    cases P.soundness.requireChallenge c with
    | error fault => exact ⟨held, rfl⟩
    | ok => exact ⟨some c, rfl⟩
  | reset => exact ⟨none, by rw [reset_eq, protocol_holding, holding_none]⟩
  | verify s first second => exact ⟨none, by rw [verify_holding, holding_none]⟩

/-- So does every run. -/
theorem settled_run {P : Protocol E} {v : Verifier E} (h : Settled P v) (calls : List (Call E)) :
    (v.run calls).Always fun x => Settled P x.2 := by
  induction calls generalizing v with
  | nil => exact h
  | cons call calls ih =>
    simp only [run, Sampling.always_bind]
    refine (settled_step h call).mono fun x hx => ?_
    exact (ih hx).mono fun _ h => h

end Verdicts

end SigmaProofs.Verifier
