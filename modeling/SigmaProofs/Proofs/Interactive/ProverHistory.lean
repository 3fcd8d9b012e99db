import SigmaProofs.Channel.Memory
import SigmaProofs.Interactive.ProverSession
import SigmaProofs.Proofs.Prover.Order
import SigmaProofs.Proofs.Relation

/-!
# Histories of a prover in a conversation

A session is called any number of times, in any order, over a channel that may refuse any frame and
may deliver any frame. The frames that the session hands over are recorded, also those that the
channel refuses.

* `ProverSession.run`: what the calls give, and what they record. `step_erase` says that recording
  changes nothing.
* `ProverSession.InStep`: a session that waits for a challenge keeps what it needs for the response,
  and its first message was the last frame; any other session is as good as new. Each call keeps
  this (`InStep.step`), and so does every run (`InStep.run`).
* `ProverSession.run_orderly`: what may be expected of a session after any calls.
-/

namespace SigmaProofs

/-! ## A record of frames -/

/-- A round of the prover. -/
inductive Round where
  | first
  | second
deriving DecidableEq, Repr

/-- A frame that was handed to a channel, and whether it was sent. -/
structure Offer where
  round : Round
  frame : ByteArray
  isSent : Bool

/-- The channel with a record of the frames that are handed to it in a round. -/
def Channel.recorded {C : Type} (round : Round) (channel : Channel C) :
    Channel (C × List Offer) where
  send frame state :=
    let (result, c) := channel.send frame state.1
    (result, c, state.2 ++ [⟨round, frame, result.isOk⟩])
  receive state :=
    let (result, c) := channel.receive state.1
    (result, c, state.2)

theorem Channel.recorded_send {C : Type} {channel : Channel C} {frame : ByteArray} {c c' : C}
    {result : Except ChannelError Unit} (h : channel.send frame c = (result, c')) (round : Round)
    (offers : List Offer) : (channel.recorded round).send frame (c, offers) =
      (result, c', offers ++ [⟨round, frame, result.isOk⟩]) := by
  simp only [recorded, h]

theorem Channel.recorded_receive {C : Type} {channel : Channel C} {c c' : C}
    {result : Except ChannelError ByteArray} (h : channel.receive c = (result, c')) (round : Round)
    (offers : List Offer) :
    (channel.recorded round).receive (c, offers) = (result, c', offers) := by
  simp only [recorded, h]

/-- Rounds follow each other: after a first message there is at most one second message, and only
if the first one was sent. -/
inductive Alternates : List Offer → Prop
  | nil : Alternates []
  | first {offers : List Offer} (h : Alternates offers) (frame : ByteArray) (isSent : Bool) :
      Alternates (offers ++ [⟨.first, frame, isSent⟩])
  | both {offers : List Offer} (h : Alternates offers) (frame frame' : ByteArray) (isSent : Bool) :
      Alternates (offers ++ [⟨.first, frame, true⟩, ⟨.second, frame', isSent⟩])

namespace ProverSession

variable {E C : Type}

/-! ## Calls -/

/-- A call of a session, or a change of the channel between two calls. -/
inductive Call (E C : Type) where
  | sendFirst (input : Witnessed E)
  | sendSecond
  | prove (input : Witnessed E)
  /-- The channel changes: its other end is used, or dropped. -/
  | elsewhere (c : C)

/-- A call, with the session and the channel afterwards. -/
def perform (channel : Channel C) (session : ProverSession E) (c : C) :
    Call E C → Sampling (Outcome E C Unit)
  | .sendFirst input => sendFirst channel session input c
  | .sendSecond => return sendSecond channel session c
  | .prove input => prove channel session input c
  | .elsewhere c => return (.ok (), session, c)

/-- A call that is recorded. -/
def step (channel : Channel C) (session : ProverSession E) (c : C) (offers : List Offer) :
    Call E C → Sampling (Outcome E (C × List Offer) Unit)
  | .sendFirst input => sendFirst (channel.recorded .first) session input (c, offers)
  | .sendSecond => return sendSecond (channel.recorded .second) session (c, offers)
  | .prove input => do
    match ← sendFirst (channel.recorded .first) session input (c, offers) with
    | (.error err, session, c) => return (.error err, session, c)
    | (.ok (), session, c) => return sendSecond (channel.recorded .second) session c
  | .elsewhere c => return (.ok (), session, c, offers)

/-- Several calls, one after another. -/
def run (channel : Channel C) (session : ProverSession E) (c : C) (offers : List Offer) :
    List (Call E C) →
      Sampling (List (Except ProtocolError Unit) × ProverSession E × C × List Offer)
  | [] => return ([], session, c, offers)
  | call :: calls => do
    let (result, session, c, offers) ← step channel session c offers call
    let (results, session, c, offers) ← run channel session c offers calls
    return (result :: results, session, c, offers)

/-! ## Recording changes nothing -/

theorem sendFirst_erase (channel : Channel C) (session : ProverSession E) (input : Witnessed E)
    (c : C) (offers : List Offer) (round : Round) :
    Prod.map id (Prod.map id Prod.fst) <$>
        sendFirst (channel.recorded round) session input (c, offers) =
      sendFirst channel session input c := by
  unfold sendFirst
  split
  · rfl
  · rw [map_bind]
    refine bind_congr ?_
    rintro ⟨err | first, p⟩
    · rfl
    · rcases h : channel.send first.toBytes.toFrame c with ⟨err | _, c'⟩
      all_goals simp only [Channel.recorded_send h, h]; rfl

theorem sendSecond_erase (channel : Channel C) (session : ProverSession E) (c : C)
    (offers : List Offer) (round : Round) :
    Prod.map id (Prod.map id Prod.fst)
        (sendSecond (channel.recorded round) session (c, offers)) =
      sendSecond channel session c := by
  unfold sendSecond
  split
  · rfl
  rcases hr : channel.receive c with ⟨err | frame, c'⟩
  · simp only [Channel.recorded_receive hr]
    rfl
  simp only [Channel.recorded_receive hr]
  obtain ⟨err | second, p⟩ := session.prover.respond (Bytes.ofFrame frame)
  · rfl
  rcases hs : channel.send second.toBytes.toFrame c' with ⟨err | _, c''⟩
  all_goals simp only [Channel.recorded_send hs, hs]; rfl

/-- Without the record, a recorded call is the call. -/
theorem step_erase (channel : Channel C) (session : ProverSession E) (c : C) (offers : List Offer)
    (call : Call E C) :
    Prod.map id (Prod.map id Prod.fst) <$> step channel session c offers call =
      perform channel session c call := by
  cases call with
  | sendFirst input => exact sendFirst_erase channel session input c offers .first
  | sendSecond =>
    exact congrArg Sampling.done (sendSecond_erase channel session c offers .second)
  | prove input =>
    simp only [step, perform, prove, ← sendFirst_erase channel session input c offers .first,
      map_bind, bind_map_left]
    refine bind_congr ?_
    rintro ⟨err | _, session', c', offers'⟩
    · rfl
    · exact congrArg Sampling.done (sendSecond_erase channel session' c' offers' .second)
  | elsewhere c' => rfl

/-! ## Session and record in step -/

/-- A session that waits for a challenge keeps what it needs for the response, and its first message
was the last frame. Any other session is as good as new. -/
inductive InStep (P : Protocol E) : ProverSession E → List Offer → Prop
  | idle {offers : List Offer} (h : Alternates offers) : InStep P { prover := .ofProtocol P } offers
  | waiting {offers : List Offer} (h : Alternates offers) (frame : ByteArray) {p : Prover E}
      (hp : p.protocol = P) (hready : p.Ready) :
      InStep P { prover := p, isWaiting := true } (offers ++ [⟨.first, frame, true⟩])

theorem InStep.fresh {P : Protocol E} {session : ProverSession E} {offers : List Offer}
    (h : InStep P session offers) (hidle : session.isWaiting = false) :
    session = { prover := .ofProtocol P } := by
  cases h with
  | idle => rfl
  | waiting => cases hidle

theorem InStep.alternates {P : Protocol E} {session : ProverSession E} {offers : List Offer}
    (h : InStep P session offers) : Alternates offers := by
  cases h with
  | idle h => exact h
  | waiting h frame => exact h.first frame true

/-- A first message opens a run, or it leaves the session as good as new. -/
theorem sendFirst_inStep {P : Protocol E} {offers : List Offer} (h : Alternates offers)
    (channel : Channel C) (input : Witnessed E) (c : C) :
    (sendFirst (channel.recorded .first) { prover := .ofProtocol P } input (c, offers)).Always
      fun (result, session, _, offers') => InStep P session offers' ∧ InOrder result ∧
        (result = .ok () ↔ session.isWaiting = true) := by
  simp only [sendFirst, Bool.false_eq_true, if_false, Sampling.always_bind]
  have hcommit := (Prover.commit_phase (.ofProtocol P) input).and (Prover.commit_inOrder _ input)
  rw [Prover.protocol_ofProtocol] at hcommit
  refine hcommit.mono ?_
  rintro ⟨err | first, p⟩ ⟨⟨hprotocol, hready, hidle⟩, horder⟩
  · have hp : p = .ofProtocol P := hprotocol ▸ hidle err rfl
    exact ⟨hp ▸ .idle h, horder.error, by simp⟩
  · rcases hs : channel.send first.toBytes.toFrame c with ⟨err | _, c'⟩
    · have hp : p.reset = .ofProtocol P := hprotocol ▸ p.reset_eq
      simp only [Channel.recorded_send hs, hp]
      exact ⟨.idle (h.first _ _), inOrder_communication .sendingFirst err, by simp⟩
    · simp only [Channel.recorded_send hs]
      exact ⟨.waiting h _ hprotocol (hready first rfl), inOrder_ok (), by simp⟩

/-- A first message is refused while a challenge is awaited, and opens a run otherwise. -/
theorem InStep.opens {P : Protocol E} {session : ProverSession E} {offers : List Offer}
    (h : InStep P session offers) (channel : Channel C) (input : Witnessed E) (c : C) :
    (sendFirst (channel.recorded .first) session input (c, offers)).Always
      fun (result, session', c', offers') => InStep P session' offers' ∧
        (InOrder result ∨ session' = session ∧ c' = c ∧ offers' = offers) ∧
        (result = .ok () → session'.isWaiting = true) := by
  cases h with
  | idle h =>
    refine (sendFirst_inStep h channel input c).mono ?_
    rintro ⟨result, session', c', offers'⟩ ⟨h', horder, hwaiting⟩
    exact ⟨h', .inl horder, hwaiting.mp⟩
  | waiting h frame hp hready =>
    exact ⟨.waiting h frame hp hready, .inr ⟨rfl, rfl, rfl⟩, by simp⟩

/-- Whatever the channel does, the run is over after a second message. -/
theorem sendSecond_over {P : Protocol E} (hP : P.Constructible) {p : Prover E}
    (hp : p.protocol = P) (hready : p.Ready) (channel : Channel C) (c : C) :
    InOrder (sendSecond channel { prover := p, isWaiting := true } c).1 ∧
      (sendSecond channel { prover := p, isWaiting := true } c).2.1 =
        { prover := .ofProtocol P } := by
  subst hp
  simp only [sendSecond, Bool.not_true, Bool.false_eq_true, if_false]
  rcases channel.receive c with ⟨err | frame, c'⟩
  · exact ⟨inOrder_communication .receivingChallenge err, by rw [← p.reset_eq]⟩
  · have hresponds := Prover.respond_of_ready hP.uniform hready (Bytes.ofFrame frame)
    have hlegal : InOrder (p.respond (Bytes.ofFrame frame)).1 := fun _ => hresponds.not_illegal
    rcases hr : p.respond (Bytes.ofFrame frame) with ⟨err | second, p'⟩
    all_goals
      rw [hr] at hresponds hlegal
      obtain rfl := hresponds.fresh
      simp only [hr]
    · exact ⟨hlegal.error, trivial⟩
    · rcases channel.send second.toBytes.toFrame c' with ⟨err | _, c''⟩
      · exact ⟨inOrder_communication .sendingSecond err, rfl⟩
      · exact ⟨inOrder_ok (), rfl⟩

/-- At most one frame is handed over in the second round. -/
theorem sendSecond_offers (channel : Channel C) (session : ProverSession E) (c : C)
    (offers : List Offer) :
    (sendSecond (channel.recorded .second) session (c, offers)).2.2.2 = offers ∨
      ∃ frame isSent, (sendSecond (channel.recorded .second) session (c, offers)).2.2.2 =
        offers ++ [⟨.second, frame, isSent⟩] := by
  unfold sendSecond
  split
  · exact .inl rfl
  rcases hr : channel.receive c with ⟨err | frame, c'⟩
  · simp only [Channel.recorded_receive hr]
    exact .inl trivial
  simp only [Channel.recorded_receive hr]
  obtain ⟨err | second, p⟩ := session.prover.respond (Bytes.ofFrame frame)
  · exact .inl rfl
  rcases hs : channel.send second.toBytes.toFrame c' with ⟨err | _, c''⟩
  all_goals
    simp only [Channel.recorded_send hs]
    exact .inr ⟨_, _, rfl⟩

/-- A second message closes a run, in the session and on record. -/
theorem InStep.closes {P : Protocol E} (hP : P.Constructible) {session : ProverSession E}
    {offers : List Offer} (h : InStep P session offers) (hwaiting : session.isWaiting = true)
    (channel : Channel C) (c : C) :
    InOrder (sendSecond (channel.recorded .second) session (c, offers)).1 ∧
      (sendSecond (channel.recorded .second) session (c, offers)).2.1 =
        { prover := .ofProtocol P } ∧
      Alternates (sendSecond (channel.recorded .second) session (c, offers)).2.2.2 := by
  cases h with
  | idle => cases hwaiting
  | @waiting offers h frame p hp hready =>
    obtain ⟨horder, hfresh⟩ := sendSecond_over hP hp hready (channel.recorded .second)
      (c, offers ++ [⟨.first, frame, true⟩])
    refine ⟨horder, hfresh, ?_⟩
    obtain hsame | ⟨frame', isSent, hoffer⟩ := sendSecond_offers channel
      { prover := p, isWaiting := true } c (offers ++ [⟨.first, frame, true⟩])
    · rw [hsame]
      exact h.first frame true
    · rw [hoffer, List.append_assoc]
      exact h.both frame frame' isSent

/-- Each call keeps session and record in step, and a call that is refused for its moment changes
nothing. -/
theorem InStep.step {P : Protocol E} (hP : P.Constructible) {session : ProverSession E}
    {offers : List Offer} (h : InStep P session offers) (channel : Channel C) (c : C)
    (call : Call E C) :
    (step channel session c offers call).Always fun (result, session', c', offers') =>
      InStep P session' offers' ∧
        (InOrder result ∨ session' = session ∧ c' = c ∧ offers' = offers) := by
  cases call with
  | sendFirst input =>
    refine (h.opens channel input c).mono ?_
    rintro ⟨result, session', c', offers'⟩ ⟨h', hresult, -⟩
    exact ⟨h', hresult⟩
  | sendSecond =>
    by_cases hwaiting : session.isWaiting = true
    · obtain ⟨horder, hfresh, halternates⟩ := h.closes hP hwaiting channel c
      exact ⟨hfresh ▸ .idle halternates, .inl horder⟩
    · have hrefused : sendSecond (channel.recorded .second) session (c, offers) =
          (.error (.illegalState .secondMessageBeforeFirst), session, c, offers) := by
        simp [sendSecond, hwaiting]
      simp only [ProverSession.step, hrefused]
      exact ⟨h, .inr ⟨rfl, rfl, rfl⟩⟩
  | prove input =>
    simp only [ProverSession.step, Sampling.always_bind]
    refine (h.opens channel input c).mono ?_
    rintro ⟨err | _, session', c', offers'⟩ ⟨h', hresult, hwaiting⟩
    · exact ⟨h', hresult⟩
    · obtain ⟨horder, hfresh, halternates⟩ := h'.closes hP (hwaiting rfl) channel c'
      exact ⟨hfresh ▸ .idle halternates, .inl horder⟩
  | elsewhere c' => exact ⟨h, .inl (inOrder_ok ())⟩

/-- After both messages of a run the session is as good as new, wherever the run ended. -/
theorem prove_over {P : Protocol E} (hP : P.Constructible) (channel : Channel C)
    (input : Witnessed E) (c : C) :
    (prove channel { prover := .ofProtocol P } input c).Always fun (_, session, _) =>
      session = { prover := .ofProtocol P } := by
  show (perform channel _ c (.prove input)).Always _
  rw [← step_erase channel _ c [] (.prove input), map_eq_pure_bind, Sampling.always_bind]
  simp only [ProverSession.step, Sampling.always_bind]
  refine (sendFirst_inStep .nil channel input c).mono ?_
  rintro ⟨err | _, session, c', offers⟩ ⟨h, -, hwaiting⟩
  · exact h.fresh (by simpa using hwaiting)
  · exact (h.closes hP (hwaiting.mp rfl) channel c').2.1

/-- Every run keeps session and record in step. -/
theorem InStep.run {P : Protocol E} (hP : P.Constructible) {session : ProverSession E}
    {offers : List Offer} (h : InStep P session offers) (channel : Channel C) (c : C)
    (calls : List (Call E C)) :
    (run channel session c offers calls).Always fun (_, session', _, offers') =>
      InStep P session' offers' := by
  induction calls generalizing session c offers with
  | nil => exact h
  | cons call calls ih =>
    simp only [ProverSession.run, Sampling.always_bind]
    refine (h.step hP channel c call).mono ?_
    rintro ⟨result, session', c', offers'⟩ ⟨h', -⟩
    refine (ih h' c').mono ?_
    rintro ⟨results, session'', c'', offers''⟩ h''
    exact h''

/-! ## What may be expected -/

/-- A session in which no random values are kept longer than for one response. -/
structure Orderly (P : Protocol E) (channel : Channel C) (session : ProverSession E) (c : C)
    (offers : List Offer) : Prop where
  /-- While a challenge is awaited, and only then, random values are kept. -/
  isWaiting_iff : session.isWaiting = true ↔ session.prover.hasPending = true
  /-- A session that does not wait is as good as new, in all its parts. -/
  fresh : session.isWaiting = false → session = { prover := .ofProtocol P }
  /-- A call that is refused for its moment changes neither the session nor the channel. -/
  refused_unchanged : ∀ call, (perform channel session c call).Always
    fun (result, session', c') => ∀ misuse, result = .error (.illegalState misuse) →
      session' = session ∧ c' = c
  /-- A second message that is not refused ends the run, whether it is given and sent or not, -/
  endsRun : session.isWaiting = true →
    InOrder (sendSecond channel session c).1 ∧
      (sendSecond channel session c).2.1 = { prover := .ofProtocol P }
  /-- and so do both messages in one call. -/
  proveEndsRun : session.isWaiting = false → ∀ input,
    (prove channel session input c).Always fun (_, session', _) =>
      session' = { prover := .ofProtocol P }
  /-- A second message is only handed to the channel right after a first one. -/
  alternates : Alternates offers

theorem InStep.orderly {P : Protocol E} (hP : P.Constructible) {session : ProverSession E}
    {offers : List Offer} (h : InStep P session offers) (channel : Channel C) (c : C) :
    Orderly P channel session c offers where
  isWaiting_iff := by
    cases h with
    | idle h => simp
    | waiting h frame hp hready => simp [hready.hasPending_eq]
  fresh := h.fresh
  refused_unchanged call := by
    rw [← step_erase channel session c offers call, map_eq_pure_bind, Sampling.always_bind]
    refine (h.step hP channel c call).mono ?_
    rintro ⟨result, session', c', offers'⟩ ⟨-, horder | ⟨rfl, rfl, rfl⟩⟩
    · exact fun misuse hmisuse => absurd hmisuse (horder misuse)
    · exact fun _ _ => ⟨rfl, rfl⟩
  endsRun hwaiting := by
    cases h with
    | idle => cases hwaiting
    | waiting h frame hp hready => exact sendSecond_over hP hp hready channel c
  proveEndsRun hidle input := by
    rw [h.fresh hidle]
    exact ProverSession.prove_over hP channel input c
  alternates := h.alternates

/-- Whatever is called, in whatever order, and whatever the channel does: a session is orderly. -/
theorem run_orderly {P : Protocol E} (hP : P.Constructible) (channel : Channel C) (c : C)
    (calls : List (Call E C)) :
    (run channel { prover := .ofProtocol P } c [] calls).Always fun (_, session, c, offers) =>
      Orderly P channel session c offers := by
  refine ((InStep.idle .nil).run hP channel c calls).mono ?_
  rintro ⟨results, session, c', offers⟩ h
  exact h.orderly hP channel c'

theorem run_orderly_smallTree :
    (run (MemoryPair.channel .a) { prover := .ofProtocol Protocol.smallTree } {} []
        [.prove ⟨Protocol.smallStatement, Protocol.smallWitness⟩, .sendSecond]).Always
      fun (_, session, c, offers) =>
        Orderly Protocol.smallTree (MemoryPair.channel .a) session c offers :=
  run_orderly Protocol.smallTree_constructible (MemoryPair.channel .a) {}
    [.prove ⟨Protocol.smallStatement, Protocol.smallWitness⟩, .sendSecond]

end ProverSession

end SigmaProofs
