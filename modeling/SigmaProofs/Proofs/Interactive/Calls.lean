import SigmaProofs.Proofs.Completeness
import SigmaProofs.Proofs.Interactive.Meeting
import SigmaProofs.Proofs.Nesting
import SigmaProofs.Proofs.Prover.Phases

/-!
# The calls of an honest prover and a verifier

What the calls of a run do if they are made in order, over a pair of which both ends are in use.

* `MemoryPair.send_eq`, `receive_cons`, `receive_nil`: frames are appended to the queue of the peer
  and taken from the own one.
* `Committed`: what is known of a prover between its two messages.
* `sendFirst_committed`, `challengeProver_eq`, `sendSecond_committed`, `conclude_accepted`: the four
  calls of a run, with what they send and log.
-/

namespace SigmaProofs

variable {E : Type} [DecidableEq E]

/-! ## Sending and receiving over a pair -/

namespace MemoryPair

/-- Both ends are in use. -/
def IsOpen (pair : MemoryPair) : Prop := pair.a.isOpen = true ∧ pair.b.isOpen = true

/-- The pair with other frames waiting for an end. -/
def withQueue (pair : MemoryPair) (side : End) (queue : List ByteArray) : MemoryPair :=
  pair.update { pair.mailbox side with queue } side

variable {pair : MemoryPair}

theorem IsOpen.withQueue (h : pair.IsOpen) (side : End) (queue : List ByteArray) :
    (pair.withQueue side queue).IsOpen := by
  cases side <;> exact h

theorem send_eq (h : pair.IsOpen) (side : End) (frame : ByteArray) :
    send side frame pair =
      (.ok (), pair.withQueue side.peer ((pair.mailbox side.peer).queue ++ [frame])) := by
  obtain ⟨ha, hb⟩ := h
  cases side <;> simp [send, withQueue, mailbox, End.peer, ha, hb]

theorem receive_cons (h : pair.IsOpen) {side : End} {frame : ByteArray}
    {queue : List ByteArray} (hq : (pair.mailbox side).queue = frame :: queue) :
    receive side pair = (.ok frame, pair.withQueue side queue) := by
  obtain ⟨ha, hb⟩ := h
  cases side <;> simp_all [receive, withQueue, mailbox]

/-- A receiver has to wait until its queue is not empty. -/
theorem receive_nil (h : pair.IsOpen) {side : End} (hq : (pair.mailbox side).queue = []) :
    receive side pair = (.error .nothingQueued, pair) := by
  obtain ⟨ha, hb⟩ := h
  cases side <;> simp_all [receive, mailbox, End.peer]

theorem receive_eq_ok (h : pair.IsOpen) {side : End} {frame : ByteArray} {pair' : MemoryPair}
    (hr : receive side pair = (.ok frame, pair')) :
    ∃ queue, (pair.mailbox side).queue = frame :: queue ∧ pair' = pair.withQueue side queue := by
  cases hq : (pair.mailbox side).queue with
  | nil =>
    rw [receive_nil h hq] at hr
    cases hr
  | cons frame' queue =>
    rw [receive_cons h hq] at hr
    cases hr
    exact ⟨queue, rfl, rfl⟩

theorem logged_send_eq (h : pair.IsOpen) (side : End) (frame : ByteArray) (log : List Event) :
    (channel side).logged.send frame (pair, log) =
      (.ok (), pair.withQueue side.peer ((pair.mailbox side.peer).queue ++ [frame]),
        log ++ [.sent (Bytes.ofFrame frame)]) := by
  have hs : (channel side).send frame pair = _ := send_eq h side frame
  simp only [Channel.logged, hs]

end MemoryPair

/-! ## Calls in order -/

/-- The prover has committed to a statement: it can answer every challenge. -/
structure Committed (P : Protocol E) (s : Statement E) (first : Message) (p : Prover E) :
    Prop where
  protocol_eq : p.protocol = P
  ready : p.Ready
  convinces : p.Convinces P s first

/-- The answer is accepted, and nothing is kept. -/
theorem Committed.respond {P : Protocol E} (hP : P.Constructible) {s : Statement E}
    {first : Message} {p : Prover E} (h : Committed P s first p) {c : Bytes}
    (hc : c.length = P.soundness.byteLength) :
    ∃ second, p.respond c = (.ok second, .ofProtocol P) ∧ P.Accepts s ⟨first, c, second⟩ := by
  obtain ⟨second, hrespond, hacc⟩ := h.convinces c hc
  have hfresh := (Prover.respond_of_ready (h.protocol_eq ▸ hP.uniform) h.ready c).fresh
  exact ⟨second, Prod.ext hrespond (hfresh.trans (by rw [h.protocol_eq])), hacc⟩

theorem Committed.nesting_eq {P : Protocol E} {s : Statement E} {first : Message} {p : Prover E}
    (h : Committed P s first p) : first.nesting = P.nesting := by
  let challenge : Bytes := List.replicate P.soundness.byteLength 0
  obtain ⟨second, -, hacc⟩ := h.convinces challenge List.length_replicate
  exact hacc.nesting.1

section Calls

variable {P : Protocol E} {pair : MemoryPair} (hopen : pair.IsOpen) (log : List Event)

include hopen

/-- The prover sends its first message. -/
theorem ProverSession.sendFirst_committed {session : ProverSession E} {input : Witnessed E}
    (hinput : P.Complete input.statement input.witness) (hp : session.prover.protocol = P)
    (hwaiting : session.isWaiting = false) :
    (session.sendFirst (MemoryPair.channel .a).logged input (pair, log)).Always
      fun (result, session', pair', log') => ∃ first, result = .ok () ∧
        session'.isWaiting = true ∧ Committed P input.statement first session'.prover ∧
        pair' = pair.withQueue .b (pair.b.queue ++ [first.toBytes.toFrame]) ∧
        log' = log ++ [.sent first.toBytes] := by
  simp only [sendFirst, hwaiting, Bool.false_eq_true, if_false, Sampling.always_bind]
  refine ((hinput _ hp).and (session.prover.commit_phase input)).mono ?_
  rintro ⟨_, p'⟩ ⟨⟨first, rfl, hconv⟩, hcommits⟩
  simp only [MemoryPair.logged_send_eq hopen]
  exact ⟨first, rfl, rfl, ⟨hcommits.protocol_eq.trans hp, hcommits.ready first rfl, hconv⟩, rfl,
    rfl⟩

/-- The prover has received the challenge, and sends its second message. -/
theorem ProverSession.sendSecond_committed (hP : P.Constructible) {session : ProverSession E}
    {s : Statement E} {first : Message} (h : Committed P s first session.prover)
    (hwaiting : session.isWaiting = true) {challenge : Bytes}
    (hc : challenge.length = P.soundness.byteLength) :
    ∃ second, P.Accepts s ⟨first, challenge, second⟩ ∧
      session.sendSecond ((MemoryPair.channel .a).handing challenge.toFrame).logged (pair, log) =
        (.ok (), { prover := .ofProtocol P },
          pair.withQueue .b (pair.b.queue ++ [second.toBytes.toFrame]),
          log ++ [.received challenge, .sent second.toBytes]) := by
  obtain ⟨second, hrespond, hacc⟩ := h.respond hP hc
  refine ⟨second, hacc, ?_⟩
  simp only [sendSecond, hwaiting, Bool.not_true, Bool.false_eq_true, if_false,
    Channel.receive_handing, Channel.send_handing, Bytes.ofFrame_toFrame, hrespond,
    MemoryPair.logged_send_eq hopen, List.append_assoc, List.cons_append, List.nil_append]
  rfl

omit [DecidableEq E] in
/-- The verifier has received the first message, and sends the challenge. -/
theorem VerifierSession.challengeProver_eq {session : VerifierSession E} {first : Message}
    {challenge : Bytes} (hidle : session.first = none)
    (hkept : session.verifier.challenge = some challenge)
    (hfirst : Message.ofFrame first.toBytes = .ok first) :
    session.challengeProver ((MemoryPair.channel .b).handing first.toBytes.toFrame).logged
        (pair, log) =
      (.ok (), { session with first := some first },
        pair.withQueue .a (pair.a.queue ++ [challenge.toFrame]),
        log ++ [.received first.toBytes, .sent challenge]) := by
  simp only [challengeProver, hidle, Option.isSome_none, Bool.false_eq_true, if_false, hkept,
    Channel.receive_handing, Channel.send_handing, Bytes.ofFrame_toFrame, hfirst,
    MemoryPair.logged_send_eq hopen, List.append_assoc, List.cons_append, List.nil_append]
  rfl

omit hopen in
/-- The verifier has received the second message, and gives its verdict. -/
theorem VerifierSession.conclude_accepted {session : VerifierSession E} {s : Statement E}
    {run : Conversation} (hv : session.verifier.protocol = P) (hrun : P.Accepts s run)
    (hfirst : session.first = some run.first)
    (hkept : session.verifier.challenge = some run.challenge)
    (hsecond : Message.ofFrame run.second.toBytes = .ok run.second) :
    ∃ verifier : Verifier E, verifier.protocol = P ∧ verifier.challenge = none ∧
      session.conclude ((MemoryPair.channel .b).handing run.second.toBytes.toFrame).logged s
          (pair, log) =
        (.ok true, { verifier }, pair, log ++ [.received run.second.toBytes]) := by
  have hverdict := Verifier.verify_fst hkept s run.first run.second
  rw [hv, hrun.verdict_eq] at hverdict
  refine ⟨(session.verifier.verify s run.first run.second).2,
    (Verifier.protocol_verify ..).trans hv, Verifier.challenge_verify .., ?_⟩
  simp only [conclude, hfirst, Channel.receive_handing, Bytes.ofFrame_toFrame, hsecond, hverdict]

end Calls

end SigmaProofs
