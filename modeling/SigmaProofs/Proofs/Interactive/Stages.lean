import SigmaProofs.Proofs.Interactive.Calls
import SigmaProofs.Proofs.Interactive.VerifierHistory
import SigmaProofs.Proofs.Message.Binary

/-!
# The stages of a run

An honest prover may be one message ahead: it sends the first message of the next run while its last
response is still on its way. So the frames of two runs share one queue, and the stage of one side
does not tell the stage of the other.

* `Ahead`: what the prover has begun beyond the runs that it has answered.
* `Meeting.Stage`: the three stages of the run that is verified next, with the frames that are on
  their way and the logs of both sides.
* `Meeting.Underway`: a stage, and what holds in all stages. Whatever happens keeps it:
  `Underway.proverNext`, `Underway.verifierNext`, `Underway.choose`, `Underway.stray`.
-/

namespace SigmaProofs

variable {E : Type} [DecidableEq E]

/-! ## Where the two sides are -/

/-- What the prover moves in a run. -/
def Conversation.proverEvents (run : Conversation) : List Event :=
  [.sent run.first.toBytes, .received run.challenge, .sent run.second.toBytes]

/-- What the verifier moves in a run. -/
def Conversation.verifierEvents (run : Conversation) : List Event :=
  [.received run.first.toBytes, .sent run.challenge, .received run.second.toBytes]

/-- What the prover has begun of the inputs that it has not answered, if `left` are those that it
has not begun: nothing, or one, of which it has sent the first message. -/
inductive Ahead (P : Protocol E) (session : ProverSession E) (left : List (Witnessed E)) :
    List (Witnessed E) → List Message → Prop
  | resting (hwaiting : session.isWaiting = false) (hp : session.prover.protocol = P) :
    Ahead P session left left []
  | committed {input : Witnessed E} {first : Message} (hwaiting : session.isWaiting = true)
      (h : Committed P input.statement first session.prover) :
    Ahead P session left (input :: left) [first]

namespace Ahead

variable {P : Protocol E} {session : ProverSession E} {left unanswered : List (Witnessed E)}
  {ahead : List Message}

theorem protocol_eq (h : Ahead P session left unanswered ahead) :
    session.prover.protocol = P := by
  cases h with
  | resting _ hp => exact hp
  | committed _ h => exact h.protocol_eq

theorem subset (h : Ahead P session left unanswered ahead) : left ⊆ unanswered := by
  cases h with
  | resting => exact List.Subset.refl _
  | committed => exact List.subset_cons_self ..

/-- Where every input is answered, the prover rests. -/
theorem of_nil (h : Ahead P session left [] ahead) :
    left = [] ∧ ahead = [] ∧ session.isWaiting = false := by
  cases h with
  | resting hwaiting => exact ⟨rfl, rfl, hwaiting⟩

end Ahead

namespace Meeting

/-- The frames that were sent to the prover and are not used. -/
def toProver (m : Meeting E) : List ByteArray := m.prover.received.toList ++ m.pair.a.queue

/-- The frames that were sent to the verifier and are not used. -/
def toVerifier (m : Meeting E) : List ByteArray := m.verifier.received.toList ++ m.pair.b.queue

/-- Where the two sides are after the given runs. -/
inductive Stage (P : Protocol E) (runs : List Conversation) (m : Meeting E) :
    List (Witnessed E) → Prop
  /-- The verifier is in no run. -/
  | idle {unverified : List (Witnessed E)} {ahead : List Message}
      (hfirst : m.verifier.session.first = none)
      (hahead : Ahead P m.prover.session m.inputs unverified ahead)
      (htoProver : m.toProver = []) (htoVerifier : m.toVerifier = ahead.map (·.toBytes.toFrame))
      (hprover : m.prover.log =
        runs.flatMap (·.proverEvents) ++ ahead.map fun first => .sent first.toBytes)
      (hverifier : m.verifier.log = runs.flatMap (·.verifierEvents)) : Stage P runs m unverified
  /-- The prover is to answer a challenge. -/
  | challenged {input : Witnessed E} {first : Message} {challenge : Bytes}
      (hfirst : m.verifier.session.first = some first)
      (hkept : m.verifier.session.verifier.challenge = some challenge)
      (hwaiting : m.prover.session.isWaiting = true)
      (hcommitted : Committed P input.statement first m.prover.session.prover)
      (htoProver : m.toProver = [challenge.toFrame]) (htoVerifier : m.toVerifier = [])
      (hprover : m.prover.log = runs.flatMap (·.proverEvents) ++ [.sent first.toBytes])
      (hverifier : m.verifier.log =
        runs.flatMap (·.verifierEvents) ++ [.received first.toBytes, .sent challenge]) :
    Stage P runs m (input :: m.inputs)
  /-- The verifier is to judge a response, and the prover may be in the next run. -/
  | answered {input : Witnessed E} {unverified : List (Witnessed E)} {run : Conversation}
      {ahead : List Message} (hfirst : m.verifier.session.first = some run.first)
      (hkept : m.verifier.session.verifier.challenge = some run.challenge)
      (hrun : P.Accepts input.statement run)
      (hahead : Ahead P m.prover.session m.inputs unverified ahead)
      (htoProver : m.toProver = [])
      (htoVerifier : m.toVerifier = run.second.toBytes.toFrame :: ahead.map (·.toBytes.toFrame))
      (hprover : m.prover.log = (runs ++ [run]).flatMap (·.proverEvents) ++
        ahead.map fun first => .sent first.toBytes)
      (hverifier : m.verifier.log =
        runs.flatMap (·.verifierEvents) ++ [.received run.first.toBytes, .sent run.challenge]) :
    Stage P runs m (input :: unverified)

/-- The given runs are over, and the verdicts on the given inputs are open. -/
structure Underway (P : Protocol E) (runs : List Conversation) (unverified : List (Witnessed E))
    (m : Meeting E) : Prop where
  stage : Stage P runs m unverified
  statements_eq : m.statements = unverified.map (·.statement)
  isOpen : m.pair.IsOpen
  verifier_eq : m.verifier.session.verifier.protocol = P
  kept_length : ∀ challenge, m.verifier.session.verifier.challenge = some challenge →
    challenge.length = P.soundness.byteLength
  /-- The verifier receives nothing without a challenge. -/
  kept : m.verifier.received.isSome = true → m.verifier.session.verifier.challenge.isSome = true
  verdicts_eq : m.verdicts = List.replicate runs.length (.ok true)
  calls_ok : ∀ result ∈ m.calls, result = .ok ()
  strays_refused : ∀ result ∈ m.strays, ∃ misuse, result = .error (.illegalState misuse)

variable {P : Protocol E} {runs : List Conversation} {unverified : List (Witnessed E)}
  {m m' : Meeting E}

omit [DecidableEq E] in
/-- A frame for the verifier is appended. -/
theorem toVerifier_append {frames : List ByteArray} (h : m.toVerifier = frames)
    (frame : ByteArray) :
    m.verifier.received.toList ++ (m.pair.b.queue ++ [frame]) = frames ++ [frame] := by
  rw [← h, toVerifier, List.append_assoc]

omit [DecidableEq E] in
theorem toProver_append {frames : List ByteArray} (h : m.toProver = frames) (frame : ByteArray) :
    m.prover.received.toList ++ (m.pair.a.queue ++ [frame]) = frames ++ [frame] := by
  rw [← h, toProver, List.append_assoc]

/-- A stage does not depend on where a frame is that was sent and is not used. -/
theorem Stage.congr (h : Stage P runs m unverified) (hp : m'.prover.session = m.prover.session)
    (hv : m'.verifier.session = m.verifier.session) (hinputs : m'.inputs = m.inputs)
    (htoProver : m'.toProver = m.toProver) (htoVerifier : m'.toVerifier = m.toVerifier)
    (hplog : m'.prover.log = m.prover.log) (hvlog : m'.verifier.log = m.verifier.log) :
    Stage P runs m' unverified := by
  cases h with
  | idle hfirst hahead hto hto' hlog hlog' =>
    rw [← hp, ← hinputs] at hahead
    exact .idle (hv ▸ hfirst) hahead (htoProver.trans hto) (htoVerifier.trans hto')
      (hplog.trans hlog) (hvlog.trans hlog')
  | challenged hfirst hkept hwaiting hcommitted hto hto' hlog hlog' =>
    rw [← hp] at hwaiting hcommitted
    rw [← hinputs]
    exact .challenged (hv ▸ hfirst) (hv ▸ hkept) hwaiting hcommitted (htoProver.trans hto)
      (htoVerifier.trans hto') (hplog.trans hlog) (hvlog.trans hlog')
  | answered hfirst hkept hrun hahead hto hto' hlog hlog' =>
    rw [← hp, ← hinputs] at hahead
    exact .answered (hv ▸ hfirst) (hv ▸ hkept) hrun hahead (htoProver.trans hto)
      (htoVerifier.trans hto') (hplog.trans hlog) (hvlog.trans hlog')

theorem Stage.protocol_eq (h : Stage P runs m unverified) :
    m.prover.session.prover.protocol = P := by
  cases h with
  | idle _ hahead => exact hahead.protocol_eq
  | challenged _ _ _ hcommitted => exact hcommitted.protocol_eq
  | answered _ _ _ hahead => exact hahead.protocol_eq

/-- What the prover has not begun has no verdict. -/
theorem Stage.subset (h : Stage P runs m unverified) : m.inputs ⊆ unverified := by
  cases h with
  | idle _ hahead => exact hahead.subset
  | challenged => exact List.subset_cons_self ..
  | answered _ _ _ hahead => exact List.subset_cons_of_subset _ hahead.subset

/-- In a run, the challenge is kept for the verdict. -/
theorem Stage.kept (h : Stage P runs m unverified) {first : Message}
    (hfirst : m.verifier.session.first = some first) :
    m.verifier.session.verifier.challenge.isSome = true := by
  cases h with
  | idle hidle => simp [hfirst] at hidle
  | challenged _ hkept => simp [hkept]
  | answered _ hkept => simp [hkept]

/-! ## The prover goes on -/

/-- A prover that rests begins its next run, whether or not its last response was used. -/
theorem Stage.sendFirst (h : Stage P runs m unverified)
    (hresting : m.prover.session.isWaiting = false) {input : Witnessed E}
    {inputs : List (Witnessed E)} (hleft : m.inputs = input :: inputs)
    {session : ProverSession E} {first : Message} (hwaiting : session.isWaiting = true)
    (hcommitted : Committed P input.statement first session.prover)
    (calls : List (Except ProtocolError Unit)) :
    Stage P runs { m.withProver session
        (m.pair.withQueue .b (m.pair.b.queue ++ [first.toBytes.toFrame]))
        (m.prover.log ++ [.sent first.toBytes]) with inputs, calls } unverified := by
  cases h with
  | idle hfirst hahead htoProver htoVerifier hprover hverifier =>
    cases hahead with
    | committed hw => simp [hw] at hresting
    | resting =>
      rw [hleft]
      refine .idle hfirst (.committed hwaiting hcommitted) ?_ ?_ ?_ hverifier
      · exact (List.append_eq_nil_iff.mp htoProver).2
      · exact toVerifier_append htoVerifier _
      · exact (congrArg (· ++ _) hprover).trans (by simp)
  | challenged hfirst hkept hw => simp [hw] at hresting
  | answered hfirst hkept hrun hahead htoProver htoVerifier hprover hverifier =>
    cases hahead with
    | committed hw => simp [hw] at hresting
    | resting =>
      rw [hleft]
      refine .answered hfirst hkept hrun (.committed hwaiting hcommitted) ?_ ?_ ?_ hverifier
      · exact (List.append_eq_nil_iff.mp htoProver).2
      · exact toVerifier_append htoVerifier _
      · exact (congrArg (· ++ _) hprover).trans (by simp)

/-- A frame that the prover has received is the challenge to its first message. -/
theorem Stage.sendSecond (h : Stage P runs m unverified) {frame : ByteArray}
    (hreceived : m.prover.received = some frame) :
    ∃ (input : Witnessed E) (first : Message) (challenge : Bytes), frame = challenge.toFrame ∧
      m.verifier.session.verifier.challenge = some challenge ∧
      Committed P input.statement first m.prover.session.prover ∧
      ∀ second, P.Accepts input.statement ⟨first, challenge, second⟩ → ∀ calls,
        Stage P runs { m.withProver { prover := .ofProtocol P }
          (m.pair.withQueue .b (m.pair.b.queue ++ [second.toBytes.toFrame]))
          (m.prover.log ++ [.received challenge, .sent second.toBytes]) with calls }
          unverified := by
  have hframe : m.toProver = frame :: m.pair.a.queue := by rw [toProver, hreceived]; rfl
  cases h with
  | idle _ _ htoProver => simp [hframe] at htoProver
  | answered _ _ _ _ htoProver => simp [hframe] at htoProver
  | challenged hfirst hkept hw hcommitted htoProver htoVerifier hprover hverifier =>
    rename_i input first challenge
    rw [hframe, List.cons.injEq] at htoProver
    obtain ⟨rfl, hempty⟩ := htoProver
    refine ⟨input, first, challenge, rfl, hkept, hcommitted, fun second hacc calls => ?_⟩
    refine @Stage.answered E _ P runs _ input _ ⟨first, challenge, second⟩ [] hfirst hkept hacc
      (.resting rfl (Prover.protocol_ofProtocol P)) hempty ?_ ?_ hverifier
    · exact toVerifier_append htoVerifier _
    · exact (congrArg (· ++ _) hprover).trans (by simp [Conversation.proverEvents])

omit [DecidableEq E] in
theorem forall_mem_concat {α : Type} {p : α → Prop} {as : List α} {a : α} (h : ∀ x ∈ as, p x)
    (ha : p a) : ∀ x ∈ as ++ [a], p x :=
  List.forall_mem_append.mpr ⟨h, List.forall_mem_singleton.mpr ha⟩

/-- A step of the prover gives no verdict. -/
theorem Underway.proverNext (h : Underway P runs unverified m) (hP : P.Constructible)
    (hinputs : ∀ input ∈ unverified, P.Complete input.statement input.witness)
    {next : Sampling (Meeting E)} (hnext : m.proverNext = some next) :
    next.Always (Underway P runs unverified) := by
  unfold Meeting.proverNext at hnext
  split at hnext
  · rename_i hresting
    split at hnext
    · cases hnext
    · rename_i input inputs hleft
      cases hnext
      have hmem : input ∈ unverified := h.stage.subset (by simp [hleft])
      rw [Sampling.always_bind]
      refine (ProverSession.sendFirst_committed h.isOpen m.prover.log (hinputs input hmem)
        h.stage.protocol_eq hresting).mono ?_
      rintro ⟨_, session, _, _⟩ ⟨first, rfl, hwaiting, hcommitted, rfl, rfl⟩
      exact { h with
        stage := h.stage.sendFirst hresting hleft hwaiting hcommitted _
        isOpen := h.isOpen.withQueue .b _
        calls_ok := forall_mem_concat h.calls_ok rfl }
  · rename_i hwaiting hreceived
    split at hnext
    · cases hnext
    · rename_i frame pair hr
      cases hnext
      -- The challenge is taken from the queue, which the stage does not tell apart.
      obtain ⟨queue, hq, rfl⟩ := MemoryPair.receive_eq_ok h.isOpen hr
      refine { h with
        stage := h.stage.congr rfl rfl rfl ?_ rfl rfl rfl
        isOpen := h.isOpen.withQueue .a queue }
      show frame :: queue = m.toProver
      rw [toProver, hreceived]
      exact hq.symm
  · rename_i frame hwaiting hreceived
    obtain ⟨input, first, challenge, rfl, hkept, hcommitted, hstage⟩ :=
      h.stage.sendSecond hreceived
    obtain ⟨second, hacc, hsend⟩ := ProverSession.sendSecond_committed h.isOpen m.prover.log hP
      hcommitted hwaiting (h.kept_length challenge hkept)
    simp only [hsend] at hnext
    cases hnext
    exact { h with
      stage := hstage second hacc _
      isOpen := h.isOpen.withQueue .b _
      calls_ok := forall_mem_concat h.calls_ok rfl }

/-! ## The verifier goes on -/

/-- Eight bytes can say how long the frames are that were sent, as they can of all that a machine
with 64-bit addresses holds. -/
def Fits (m : Meeting E) : Prop := ∀ frame, .sent frame ∈ m.prover.log → frame.Short

/-- A frame that the verifier has received outside a run is the first message of the next one. -/
theorem Stage.challengeProver (h : Stage P runs m unverified) {frame : ByteArray}
    (hreceived : m.verifier.received = some frame) (hidle : m.verifier.session.first = none) :
    ∃ first : Message, frame = first.toBytes.toFrame ∧ first.nesting = P.nesting ∧
      .sent first.toBytes ∈ m.prover.log ∧
      ∀ challenge, m.verifier.session.verifier.challenge = some challenge → ∀ calls,
        Stage P runs { m.withVerifier { m.verifier.session with first := some first }
          (m.pair.withQueue .a (m.pair.a.queue ++ [challenge.toFrame]))
          (m.verifier.log ++ [.received first.toBytes, .sent challenge]) with calls }
          unverified := by
  have hframe : m.toVerifier = frame :: m.pair.b.queue := by rw [toVerifier, hreceived]; rfl
  cases h with
  | challenged hfirst => simp [hidle] at hfirst
  | answered hfirst => simp [hidle] at hfirst
  | idle _ hahead htoProver htoVerifier hprover hverifier =>
    cases hahead with
    | resting => simp [hframe] at htoVerifier
    | committed hwaiting hcommitted =>
      rename_i input first
      rw [hframe, List.map_singleton, List.cons.injEq] at htoVerifier
      obtain ⟨rfl, hempty⟩ := htoVerifier
      refine ⟨first, rfl, hcommitted.nesting_eq, by simp [hprover], fun challenge hkept calls => ?_⟩
      refine .challenged rfl hkept hwaiting hcommitted ?_ hempty hprover ?_
      · exact toProver_append htoProver _
      · exact congrArg (· ++ _) hverifier

/-- A frame that the verifier has received in a run is the response to its challenge, although the
prover may have sent another one since. -/
theorem Stage.conclude (h : Stage P runs m unverified) {frame : ByteArray}
    (hreceived : m.verifier.received = some frame) {first : Message}
    (hfirst : m.verifier.session.first = some first) :
    ∃ (input : Witnessed E) (left : List (Witnessed E)) (run : Conversation),
      unverified = input :: left ∧ frame = run.second.toBytes.toFrame ∧
      P.Accepts input.statement run ∧ .sent run.second.toBytes ∈ m.prover.log ∧
      m.verifier.session.first = some run.first ∧
      m.verifier.session.verifier.challenge = some run.challenge ∧
      ∀ verifier statements verdicts,
        Stage P (runs ++ [run]) { m.withVerifier { verifier } m.pair
          (m.verifier.log ++ [.received run.second.toBytes]) with statements, verdicts } left := by
  have hframe : m.toVerifier = frame :: m.pair.b.queue := by rw [toVerifier, hreceived]; rfl
  cases h with
  | idle hidle => simp [hfirst] at hidle
  | challenged _ _ _ _ _ htoVerifier => simp [hframe] at htoVerifier
  | answered hfirst' hkept hrun hahead htoProver htoVerifier hprover hverifier =>
    rename_i input left run ahead
    rw [hframe, List.cons.injEq] at htoVerifier
    obtain ⟨rfl, hqueue⟩ := htoVerifier
    refine ⟨input, left, run, rfl, rfl, hrun, by simp [hprover, Conversation.proverEvents],
      hfirst', hkept, fun verifier statements verdicts => ?_⟩
    refine .idle rfl hahead htoProver hqueue hprover ?_
    exact (congrArg (· ++ _) hverifier).trans (by simp [Conversation.verifierEvents])

/-- A step of the verifier ends the oldest run, or no run. -/
theorem Underway.verifierNext (h : Underway P runs unverified m)
    (hnesting : P.nesting ≤ maxNesting) (hfits : m.Fits) (hnext : m.verifierNext = some m') :
    Underway P runs unverified m' ∨
      ∃ (input : Witnessed E) (left : List (Witnessed E)) (run : Conversation),
        unverified = input :: left ∧ P.Accepts input.statement run ∧
          Underway P (runs ++ [run]) left m' := by
  unfold Meeting.verifierNext at hnext
  split at hnext
  · cases hnext
  · rename_i hreceived
    split at hnext
    · cases hnext
    rename_i hready
    split at hnext
    · cases hnext
    rename_i frame pair hr
    cases hnext
    obtain ⟨queue, hq, rfl⟩ := MemoryPair.receive_eq_ok h.isOpen hr
    refine .inl { h with
      stage := h.stage.congr rfl rfl rfl rfl ?_ rfl rfl
      isOpen := h.isOpen.withQueue .b queue
      kept := fun _ => ?_ }
    · show frame :: queue = m.toVerifier
      rw [toVerifier, hreceived]
      exact hq.symm
    -- In a run the challenge is kept, and outside of one the call would have been refused.
    · cases hfirst : m.verifier.session.first with
      | some first => exact h.stage.kept hfirst
      | none => simpa [hfirst, Option.isSome_iff_ne_none] using hready
  · rename_i statement statements frame hstatements hreceived hidle
    obtain ⟨first, rfl, hdepth, hsent, hstage⟩ := h.stage.challengeProver hreceived hidle
    obtain ⟨challenge, hkept⟩ := Option.isSome_iff_exists.mp (h.kept (by simp [hreceived]))
    -- No run is accepted yet that would bound the nesting; the commitment does.
    have hread := Message.ofFrame_toBytes (hdepth ▸ hnesting) (hfits _ hsent)
    have hcall := VerifierSession.challengeProver_eq h.isOpen m.verifier.log hidle hkept hread
    simp only [hcall] at hnext
    cases hnext
    exact .inl { h with
      stage := hstage challenge hkept _
      isOpen := h.isOpen.withQueue .a _
      kept := fun h => by cases h
      calls_ok := forall_mem_concat h.calls_ok rfl }
  · rename_i statement statements frame first hstatements hreceived hfirst
    obtain ⟨input, left, run, rfl, rfl, hrun, hsent, hfirst', hkept, hstage⟩ :=
      h.stage.conclude hreceived hfirst
    have hread := Message.ofFrame_toBytes (Nat.le_trans hrun.nesting.2 hnesting) (hfits _ hsent)
    obtain ⟨verifier, hv, hused, hcall⟩ := @VerifierSession.conclude_accepted E _ P m.pair
      m.verifier.log m.verifier.session input.statement run h.verifier_eq hrun hfirst' hkept hread
    obtain ⟨rfl, rfl⟩ : input.statement = statement ∧ left.map (·.statement) = statements := by
      simpa using h.statements_eq.symm.trans hstatements
    simp only [hcall] at hnext
    cases hnext
    refine .inr ⟨input, left, run, rfl, hrun, { h with
      stage := hstage verifier _ _
      statements_eq := rfl
      verifier_eq := hv
      kept_length := fun challenge h => ?_
      kept := fun h => by cases h
      verdicts_eq := ?_ }⟩
    · cases hused.symm.trans h
    · show m.verdicts ++ [.ok true] = _
      rw [h.verdicts_eq, List.length_append, List.length_singleton, List.replicate_succ']

/-! ## Between the steps -/

/-- Where no run is open, another challenge may be kept. -/
theorem Underway.choose (h : Underway P runs unverified m) (hmay : m.mayChoose = true)
    {challenge : Bytes} (hc : challenge.length = P.soundness.byteLength) :
    Underway P runs unverified
      { m with verifier := { m.verifier with session := m.verifier.session.put challenge } } := by
  simp only [mayChoose, Bool.and_eq_true, Option.isNone_iff_eq_none] at hmay
  have hput := VerifierSession.challenge_put m.verifier.session challenge
  refine { h with
    stage := ?_
    verifier_eq := (Verifier.protocol_put m.verifier.session.verifier challenge).trans h.verifier_eq
    kept_length := fun c hkept => ?_
    kept := fun _ => Option.isSome_iff_exists.mpr ⟨challenge, hput⟩ }
  · cases h.stage with
    | idle hfirst hahead htoProver htoVerifier hprover hverifier =>
      exact .idle hfirst hahead htoProver htoVerifier hprover hverifier
    | challenged hfirst => simp [hmay.2] at hfirst
    | answered hfirst => simp [hmay.2] at hfirst
  · obtain rfl : challenge = c := Option.some.inj (hput.symm.trans hkept)
    exact hc

/-- A call out of order is refused, and it changes nothing. -/
theorem Underway.stray (h : Underway P runs unverified m) (misuse : Misuse) :
    Underway P runs unverified
      { m with strays := m.strays ++ [.error (.illegalState misuse)] } :=
  { h with
    stage := h.stage.congr rfl rfl rfl rfl rfl rfl rfl
    strays_refused := forall_mem_concat h.strays_refused ⟨misuse, rfl⟩ }

end Meeting

end SigmaProofs
