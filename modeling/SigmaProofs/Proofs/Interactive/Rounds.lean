import SigmaProofs.Proofs.Interactive.Stages

/-!
# Rounds do not mix

* `Meeting.OnCourse`: the verdicts so far are right, and the meeting is in a stage of the next run.
  Each action keeps it (`OnCourse.step`), and so does every run (`OnCourse.run`).
* `Meeting.Faithful`: what this means for the frames, the verdicts and the calls.
* `Meeting.run_faithful`: so it is however the steps of both sides follow each other.
-/

namespace SigmaProofs.Meeting

variable {E : Type} [DecidableEq E] {P : Protocol E} {runs : List Conversation}
  {inputs unverified : List (Witnessed E)} {m : Meeting E}

/-! ## All that can happen -/

/-- The verdicts that were given are right, and the meeting is underway. -/
def OnCourse (P : Protocol E) (inputs : List (Witnessed E)) (m : Meeting E) : Prop :=
  ∃ (verified unverified : List (Witnessed E)) (runs : List Conversation),
    inputs = verified ++ unverified ∧
    List.Forall₂ (fun input run => P.Accepts input.statement run) verified runs ∧
    Underway P runs unverified m

/-- Each action keeps a meeting on course. -/
theorem OnCourse.step (h : OnCourse P inputs m) (hP : P.Constructible)
    (hnesting : P.nesting ≤ maxNesting) (hfits : m.Fits)
    (hinputs : ∀ input ∈ inputs, P.Complete input.statement input.witness) (action : Action E) :
    (m.step action).Always (OnCourse P inputs) := by
  obtain ⟨verified, unverified, runs, rfl, hruns, h⟩ := h
  have hkeep : ∀ m', Underway P runs unverified m' → OnCourse P (verified ++ unverified) m' :=
    fun m' h' => ⟨verified, unverified, runs, rfl, hruns, h'⟩
  cases action with
  | prover =>
    rw [Meeting.step]
    cases hnext : m.proverNext with
    | none => exact hkeep m h
    | some next =>
      refine (h.proverNext hP (fun input hi => ?_) hnext).mono hkeep
      exact hinputs input (List.mem_append_right verified hi)
  | verifier =>
    rw [Meeting.step]
    cases hnext : m.verifierNext with
    | none => exact hkeep m h
    | some m' =>
      obtain h' | ⟨input, left, run, rfl, hrun, h'⟩ := h.verifierNext hnesting hfits hnext
      · exact hkeep m' h'
      · exact ⟨verified ++ [input], left, runs ++ [run], by simp,
          List.rel_append hruns (.cons hrun .nil), h'⟩
  | draw =>
    rw [Meeting.step]
    split
    · rename_i hmay
      rw [Sampling.always_bind]
      refine m.verifier.session.drawChallenge_always.mono ?_
      rintro ⟨challenge, _⟩ ⟨hc, rfl⟩
      exact hkeep _ (h.choose hmay (h.verifier_eq ▸ hc))
    · exact hkeep m h
  | keep challenge =>
    rw [Meeting.step]
    split
    · rename_i session hmay hkept
      obtain ⟨hc, rfl⟩ := VerifierSession.keepChallenge_eq_ok hkept
      exact hkeep _ (h.choose hmay (h.verifier_eq ▸ hc))
    · exact hkeep m h
  | stray call =>
    rw [Meeting.step]
    split
    · rename_i hout
      obtain ⟨misuse, hrefused⟩ := callStray_refused hout
      rw [hrefused]
      exact hkeep _ (h.stray misuse)
    · exact hkeep m h

/-- As long as frames fit, a meeting stays on course. -/
theorem OnCourse.run (h : m.Fits → OnCourse P inputs m) (hP : P.Constructible)
    (hnesting : P.nesting ≤ maxNesting)
    (hinputs : ∀ input ∈ inputs, P.Complete input.statement input.witness)
    (actions : List (Action E)) :
    (m.run actions).Always fun m' => m'.Fits → OnCourse P inputs m' := by
  induction actions generalizing m with
  | nil => exact h
  | cons action actions ih =>
    rw [Meeting.run, Sampling.always_bind]
    -- Frames stay on the log, so if they fit in the end, they fit now.
    by_cases hfits : m.Fits
    · exact ((h hfits).step hP hnesting hfits hinputs action).mono fun m' h' => ih fun _ => h'
    · refine (m.prefix_step action).mono fun m' hlog => ih fun hfits' => ?_
      exact absurd (fun frame hsent => hfits' frame (hlog.subset hsent)) hfits

/-! ## What a meeting comes to -/

/-- `runs` are the runs that have a verdict, one for each of the first inputs in their order. -/
structure Faithful (P : Protocol E) (inputs : List (Witnessed E)) (runs : List Conversation)
    (m : Meeting E) : Prop where
  accepted : List.Forall₂ (fun input run => P.Accepts input.statement run)
    (inputs.take runs.length) runs
  verdicts_eq : m.verdicts = List.replicate runs.length (.ok true)
  calls_ok : ∀ result ∈ m.calls, result = .ok ()
  strays_refused : ∀ result ∈ m.strays, ∃ misuse, result = .error (.illegalState misuse)
  /-- The prover has moved the frames of these runs, one run after another. -/
  prover_log : runs.flatMap (·.proverEvents) <+: m.prover.log
  /-- So has the verifier, and nothing else unless it is in the next run. -/
  verifier_log : ∃ begun, m.verifier.log = runs.flatMap (·.verifierEvents) ++ begun ∧
    (m.verifier.session.first = none → begun = [])
  /-- No frame is lost or received twice. -/
  to_verifier : m.prover.log.filterMap Event.sent? =
    m.verifier.log.filterMap Event.received? ++ m.toVerifier.map Bytes.ofFrame
  to_prover : m.verifier.log.filterMap Event.sent? =
    m.prover.log.filterMap Event.received? ++ m.toProver.map Bytes.ofFrame
  /-- Until there are all verdicts, a side can go on, or the verifier has to choose a challenge. -/
  goes_on : m.statements ≠ [] → m.proverNext.isSome = true ∨ m.verifierNext.isSome = true ∨
    m.mayChoose = true ∧ m.verifier.session.verifier.challenge = none
  /-- Then there is a run for every input, no frame is left, and both sides are where they began. -/
  at_end : m.statements = [] → runs.length = inputs.length ∧ m.inputs = [] ∧
    m.prover.log = runs.flatMap (·.proverEvents) ∧
    m.verifier.log = runs.flatMap (·.verifierEvents) ∧ m.toProver = [] ∧ m.toVerifier = [] ∧
    m.prover.session.isWaiting = false ∧ m.verifier.session.first = none

theorem filterMap_sent_proverEvents (runs : List Conversation) :
    (runs.flatMap (·.proverEvents)).filterMap Event.sent? =
      (runs.flatMap (·.verifierEvents)).filterMap Event.received? := by
  rw [List.filterMap_flatMap, List.filterMap_flatMap]
  rfl

theorem filterMap_sent_verifierEvents (runs : List Conversation) :
    (runs.flatMap (·.verifierEvents)).filterMap Event.sent? =
      (runs.flatMap (·.proverEvents)).filterMap Event.received? := by
  rw [List.filterMap_flatMap, List.filterMap_flatMap]
  rfl

theorem Stage.to_verifier (h : Stage P runs m unverified) :
    m.prover.log.filterMap Event.sent? =
      m.verifier.log.filterMap Event.received? ++ m.toVerifier.map Bytes.ofFrame := by
  cases h with
  | idle _ _ _ hto hprover hverifier =>
    rw [hprover, hverifier, hto, List.filterMap_append, filterMap_sent_proverEvents]
    simp [Event.sent?, Function.comp_def, List.filterMap_map]
  | challenged _ _ _ _ _ hto hprover hverifier =>
    rw [hprover, hverifier, hto, List.filterMap_append, filterMap_sent_proverEvents]
    simp [List.filterMap_cons, Event.sent?, Event.received?]
  | answered _ _ _ _ _ hto hprover hverifier =>
    rw [hprover, hverifier, hto, List.filterMap_append, filterMap_sent_proverEvents]
    simp [List.filterMap_cons, Event.sent?, Event.received?, Function.comp_def, List.filterMap_map,
      Conversation.verifierEvents]

theorem Stage.to_prover (h : Stage P runs m unverified) :
    m.verifier.log.filterMap Event.sent? =
      m.prover.log.filterMap Event.received? ++ m.toProver.map Bytes.ofFrame := by
  cases h with
  | idle _ _ hto _ hprover hverifier =>
    rw [hprover, hverifier, hto, List.filterMap_append, filterMap_sent_verifierEvents]
    simp [Event.received?, Function.comp_def, List.filterMap_map]
  | challenged _ _ _ _ hto _ hprover hverifier =>
    rw [hprover, hverifier, hto, List.filterMap_append, filterMap_sent_verifierEvents]
    simp [List.filterMap_cons, Event.sent?, Event.received?]
  | answered _ _ _ _ hto _ hprover hverifier =>
    rw [hprover, hverifier, hto, List.filterMap_append, filterMap_sent_verifierEvents]
    simp [List.filterMap_cons, Event.sent?, Event.received?, Function.comp_def, List.filterMap_map,
      Conversation.proverEvents]

omit [DecidableEq E] in
theorem proverNext_isSome (hopen : m.pair.IsOpen) (hwaiting : m.prover.session.isWaiting = true)
    (hto : m.toProver ≠ []) : m.proverNext.isSome = true := by
  rw [toProver] at hto
  unfold Meeting.proverNext
  cases hreceived : m.prover.received with
  | some frame => simp only [hwaiting, Option.isSome_some]
  | none =>
    cases hq : m.pair.a.queue with
    | nil => simp [hreceived, hq] at hto
    | cons frame queue =>
      have hr : MemoryPair.receive .a m.pair = _ := MemoryPair.receive_cons hopen hq
      simp only [hwaiting, hr, Option.isSome_some]

theorem verifierNext_isSome (hopen : m.pair.IsOpen) (hstatements : m.statements ≠ [])
    (hready : ¬(m.mayChoose = true ∧ m.verifier.session.verifier.challenge = none))
    (hto : m.toVerifier ≠ []) : m.verifierNext.isSome = true := by
  rw [toVerifier] at hto
  unfold Meeting.verifierNext
  obtain ⟨statement, statements, hcons⟩ := List.exists_cons_of_ne_nil hstatements
  cases hreceived : m.verifier.received with
  | some frame =>
    cases hfirst : m.verifier.session.first with
    | none => simp only [hcons, Option.isSome_some]
    | some first => simp only [hcons, Option.isSome_some]
  | none =>
    cases hq : m.pair.b.queue with
    | nil => simp [hreceived, hq] at hto
    | cons frame queue =>
      have hr : MemoryPair.receive .b m.pair = _ := MemoryPair.receive_cons hopen hq
      have hguard : (m.verifier.session.first.isNone &&
          m.verifier.session.verifier.challenge.isNone) = false := by
        rw [mayChoose, hreceived] at hready
        simpa [Option.isSome_iff_ne_none] using hready
      simp only [hcons, hguard, hr, Bool.false_eq_true, if_false, Option.isSome_some]

/-- Nobody waits for a frame that is not on its way. -/
theorem Stage.goes_on (h : Stage P runs m unverified) (hopen : m.pair.IsOpen)
    (hunverified : unverified ≠ []) (hstatements : m.statements ≠ []) :
    m.proverNext.isSome = true ∨ m.verifierNext.isSome = true ∨
      m.mayChoose = true ∧ m.verifier.session.verifier.challenge = none := by
  by_cases hready : m.mayChoose = true ∧ m.verifier.session.verifier.challenge = none
  · exact .inr (.inr hready)
  cases h with
  | idle _ hahead _ htoVerifier =>
    cases hahead with
    | resting hresting =>
      obtain ⟨input, inputs, hcons⟩ := List.exists_cons_of_ne_nil hunverified
      refine .inl ?_
      unfold Meeting.proverNext
      simp only [hresting, hcons, Option.isSome_some]
    | committed =>
      exact .inr (.inl (verifierNext_isSome hopen hstatements hready (by simp [htoVerifier])))
  | challenged _ _ hwaiting _ htoProver =>
    exact .inl (proverNext_isSome hopen hwaiting (by simp [htoProver]))
  | answered _ _ _ _ _ htoVerifier =>
    exact .inr (.inl (verifierNext_isSome hopen hstatements hready (by simp [htoVerifier])))

theorem Stage.logs (h : Stage P runs m unverified) :
    runs.flatMap (·.proverEvents) <+: m.prover.log ∧
      ∃ begun, m.verifier.log = runs.flatMap (·.verifierEvents) ++ begun ∧
        (m.verifier.session.first = none → begun = []) := by
  cases h with
  | idle _ _ _ _ hprover hverifier =>
    rw [hprover]
    exact ⟨List.prefix_append .., [], hverifier.trans (List.append_nil _).symm, fun _ => rfl⟩
  | challenged hfirst _ _ _ _ _ hprover hverifier =>
    rw [hprover]
    exact ⟨List.prefix_append .., _, hverifier, fun h => by simp [h] at hfirst⟩
  | answered hfirst _ _ _ _ _ hprover hverifier =>
    rw [hprover, List.flatMap_append, List.append_assoc]
    exact ⟨List.prefix_append .., _, hverifier, fun h => by simp [h] at hfirst⟩

/-- Where every verdict was given, both sides are where they began. -/
theorem Stage.at_end (h : Stage P runs m []) : m.inputs = [] ∧
    m.prover.log = runs.flatMap (·.proverEvents) ∧
    m.verifier.log = runs.flatMap (·.verifierEvents) ∧ m.toProver = [] ∧ m.toVerifier = [] ∧
    m.prover.session.isWaiting = false ∧ m.verifier.session.first = none := by
  cases h with
  | idle hfirst hahead htoProver htoVerifier hprover hverifier =>
    obtain ⟨hleft, rfl, hresting⟩ := hahead.of_nil
    exact ⟨hleft, by simpa using hprover, hverifier, htoProver, htoVerifier, hresting, hfirst⟩

/-- A meeting that is on course is faithful. -/
theorem OnCourse.faithful (h : OnCourse P inputs m) : ∃ runs, Faithful P inputs runs m := by
  obtain ⟨verified, unverified, runs, rfl, hruns, h⟩ := h
  have hlen : runs.length = verified.length := hruns.length_eq.symm
  refine ⟨runs, ?_⟩
  exact {
    accepted := by rwa [hlen, List.take_left]
    verdicts_eq := h.verdicts_eq
    calls_ok := h.calls_ok
    strays_refused := h.strays_refused
    prover_log := h.stage.logs.1
    verifier_log := h.stage.logs.2
    to_verifier := h.stage.to_verifier
    to_prover := h.stage.to_prover
    goes_on := fun hstatements => h.stage.goes_on h.isOpen
      (fun hnil => hstatements (by rw [h.statements_eq, hnil]; rfl)) hstatements
    at_end := fun hstatements => by
      obtain rfl := List.map_eq_nil_iff.mp (h.statements_eq.symm.trans hstatements)
      exact ⟨by rw [hlen, List.append_nil], h.stage.at_end⟩ }

/-- However the steps of an honest prover and a verifier follow each other, their rounds do not mix:
each verdict is on the frames of one run of the prover, and positive. Calls out of order are refused,
and in the end nothing is left over. The protocol is any tree that can be built and whose messages
can be read, and both sides begin in any state. -/
theorem run_faithful (hP : P.Constructible) (hG : ∀ G ∈ P.groups, G.Lawful)
    (hnesting : P.nesting ≤ maxNesting)
    (hinputs : ∀ input ∈ inputs, P.Suits input.statement ∧ P.Proves input.statement input.witness)
    {p : Prover E} (hp : p.protocol = P) {v : Verifier E} (hv : v.protocol = P)
    (hkept : ∀ challenge, v.challenge = some challenge →
      challenge.length = P.soundness.byteLength) (actions : List (Action E)) :
    ((start p v inputs).run actions).Always fun m =>
      m.Fits → ∃ runs, Faithful P inputs runs m := by
  have hcomplete : ∀ input ∈ inputs, P.Complete input.statement input.witness := fun input hi =>
    Protocol.complete hP.uniform hG (hinputs input hi).1 (hinputs input hi).2
  have hstart : OnCourse P inputs (start p v inputs) := by
    refine ⟨[], inputs, [], rfl, .nil, {
      stage := .idle rfl (.resting rfl hp) rfl rfl rfl rfl
      statements_eq := rfl
      isOpen := ⟨rfl, rfl⟩
      verifier_eq := hv
      kept_length := hkept
      kept := fun h => by cases h
      verdicts_eq := rfl
      calls_ok := fun _ h => by cases h
      strays_refused := fun _ h => by cases h }⟩
  refine (OnCourse.run (fun _ => hstart) hP hnesting hcomplete actions).mono fun m h hfits => ?_
  exact (h hfits).faithful

/-- Two proofs of one statement. -/
def smallInputs : List (Witnessed Nat) :=
  List.replicate 2 ⟨Protocol.smallStatement, Protocol.smallWitness⟩

/-- The prover begins its second run while its first response is on its way, and both sides are
called out of order. -/
def smallActions : List (Action Nat) :=
  [.stray .sendSecond, .prover, .verifier, .stray .challengeProver, .keep [5], .verifier, .verifier,
    .stray .challengeProver, .prover, .prover, .prover, .verifier, .verifier,
    .stray (.conclude Protocol.smallStatement), .draw, .verifier, .verifier, .prover, .prover,
    .verifier, .verifier]

theorem run_faithful_smallTree :
    ((start (.ofProtocol Protocol.smallTree) (.ofProtocol Protocol.smallTree) smallInputs).run
      smallActions).Always fun m =>
        m.Fits → ∃ runs, Faithful Protocol.smallTree smallInputs runs m := by
  refine run_faithful Protocol.smallTree_constructible Protocol.smallTree_lawful (by decide)
    (fun input hi => ?_) (Prover.protocol_ofProtocol _) (Verifier.protocol_ofProtocol _)
    (fun challenge h => ?_) smallActions
  · obtain rfl := List.eq_of_mem_replicate hi
    exact ⟨Protocol.smallTree_suits, Protocol.smallTree_proves⟩
  · simp at h

example : ((start (.ofProtocol Protocol.smallTree) (.ofProtocol Protocol.smallTree)
    smallInputs).run smallActions >>= fun m => pure (m.verdicts, m.statements.length)).replay
      [⟨.bytes 1, ([1] : Bytes)⟩, ⟨.below 1019, (2 : Nat)⟩, ⟨.below 1019, (3 : Nat)⟩,
        ⟨.below 1019, (4 : Nat)⟩, ⟨.bytes 1, ([6] : Bytes)⟩, ⟨.below 1019, (7 : Nat)⟩,
        ⟨.below 1019, (8 : Nat)⟩, ⟨.below 1019, (9 : Nat)⟩, ⟨.bytes 1, ([10] : Bytes)⟩] =
    some ([.ok true, .ok true], 0) := by
  decide +kernel

end SigmaProofs.Meeting
