import SigmaProofs.Channel.Memory
import SigmaProofs.Interactive.ProverSession
import SigmaProofs.Interactive.VerifierSession
import SigmaProofs.Proofs.Interactive.Log
import SigmaProofs.Proofs.Steps

/-!
# A prover and a verifier at the two ends of a pair

The prover proves one input after another, and the verifier verifies their statements in order. At
every frame that is moved, either of them may go on: a call that receives a frame is made in two
steps, of which the first waits for the frame and the second is the rest of the call. Between its
runs the verifier chooses challenges, and both sides may be called out of order.

* `Channel.handing`: what is left of a channel for a call that has received its frame. A call is its
  two steps (`sendSecond_handing`, `challengeProver_handing`, `conclude_handing`).
* `Meeting.proverNext`, `Meeting.verifierNext`: the next step of a side, unless it has to wait.
* `Meeting.step`, `Meeting.run`: all that can happen. A call out of order is refused and changes
  nothing (`Meeting.callStray_refused`).
* `Meeting.prefix_step`: what the prover has moved stays on its log.
-/

namespace SigmaProofs

variable {E C : Type}

/-! ## Calls in two steps -/

/-- The channel for a call that has received its frame. -/
def Channel.handing (channel : Channel C) (frame : ByteArray) : Channel C :=
  { channel with receive := fun c => (.ok frame, c) }

@[simp] theorem Channel.receive_handing (channel : Channel C) (frame : ByteArray) (c : C)
    (log : List Event) : (channel.handing frame).logged.receive (c, log) =
      (.ok frame, c, log ++ [.received (Bytes.ofFrame frame)]) := rfl

@[simp] theorem Channel.send_handing (channel : Channel C) (frame : ByteArray) :
    (channel.handing frame).logged.send = channel.logged.send := rfl

section Handing

variable {channel : Channel C} {c c' : C} {frame : ByteArray} (log : List Event)

theorem ProverSession.sendSecond_handing {session : ProverSession E}
    (hwaiting : session.isWaiting = true) (hr : channel.receive c = (.ok frame, c')) :
    sendSecond channel.logged session (c, log) =
      sendSecond (channel.handing frame).logged session (c', log) := by
  simp only [sendSecond, hwaiting, Bool.not_true, Bool.false_eq_true, if_false, Channel.logged, hr,
    Channel.handing]

theorem VerifierSession.challengeProver_handing {session : VerifierSession E} {challenge : Bytes}
    (hkept : session.verifier.challenge = some challenge)
    (hr : channel.receive c = (.ok frame, c')) (hidle : session.first = none) :
    challengeProver channel.logged session (c, log) =
      challengeProver (channel.handing frame).logged session (c', log) := by
  simp only [challengeProver, hidle, Option.isSome_none, Bool.false_eq_true, if_false, hkept,
    Channel.logged, hr, Channel.handing]

theorem VerifierSession.conclude_handing [DecidableEq E] {session : VerifierSession E}
    {first : Message} (hfirst : session.first = some first)
    (hr : channel.receive c = (.ok frame, c')) (statement : Statement E) :
    conclude channel.logged session statement (c, log) =
      conclude (channel.handing frame).logged session statement (c', log) := by
  simp only [conclude, hfirst, Channel.logged, hr, Channel.handing]

end Handing

/-! ## The meeting -/

/-- One side of a meeting. -/
structure Party (S : Type) where
  session : S
  /-- The frame that was received in a call that is not over. -/
  received : Option ByteArray := none
  log : List Event := []

/-- A prover and a verifier, with the channel between them and what they have done. -/
structure Meeting (E : Type) where
  prover : Party (ProverSession E)
  verifier : Party (VerifierSession E)
  pair : MemoryPair := {}
  /-- What the prover has not begun to prove. -/
  inputs : List (Witnessed E)
  /-- What has no verdict. -/
  statements : List (Statement E)
  /-- What the calls gave that were made in order, and gave no verdict. -/
  calls : List (Except ProtocolError Unit) := []
  verdicts : List (Except ProtocolError Bool) := []
  /-- What the calls gave that were made out of order. -/
  strays : List (Except ProtocolError Unit) := []

/-- A call out of order. -/
inductive Stray (E : Type) where
  | sendFirst (input : Witnessed E)
  | sendSecond
  | challengeProver
  | conclude (statement : Statement E)

/-- What can happen in a meeting. -/
inductive Action (E : Type) where
  /-- The prover goes on. -/
  | prover
  /-- The verifier goes on. -/
  | verifier
  /-- The verifier draws a challenge. -/
  | draw
  /-- The verifier is given a challenge. -/
  | keep (challenge : Bytes)
  | stray (call : Stray E)

namespace Meeting

/-- A meeting in which nothing has happened. -/
def start (prover : Prover E) (verifier : Verifier E) (inputs : List (Witnessed E)) :
    Meeting E where
  prover := { session := { prover } }
  verifier := { session := { verifier } }
  inputs := inputs
  statements := inputs.map (·.statement)

/-- The prover after a call. -/
def withProver (m : Meeting E) (session : ProverSession E) (pair : MemoryPair)
    (log : List Event) : Meeting E :=
  { m with prover := { session, log }, pair }

/-- The verifier after a call. -/
def withVerifier (m : Meeting E) (session : VerifierSession E) (pair : MemoryPair)
    (log : List Event) : Meeting E :=
  { m with verifier := { session, log }, pair }

/-- The next step of the prover, unless it has to wait or has proved everything. -/
def proverNext (m : Meeting E) : Option (Sampling (Meeting E)) :=
  match m.prover.session.isWaiting, m.prover.received with
  | false, _ =>
    match m.inputs with
    | [] => none
    | input :: inputs => some do
      let (result, session, pair, log) ← m.prover.session.sendFirst
        (MemoryPair.channel .a).logged input (m.pair, m.prover.log)
      return { m.withProver session pair log with inputs, calls := m.calls ++ [result] }
  | true, none =>
    match MemoryPair.receive .a m.pair with
    | (.error _, _) => none
    | (.ok frame, pair) =>
      some (return { m with prover := { m.prover with received := some frame }, pair })
  | true, some frame =>
    let (result, session, pair, log) := m.prover.session.sendSecond
      ((MemoryPair.channel .a).handing frame).logged (m.pair, m.prover.log)
    some (return { m.withProver session pair log with calls := m.calls ++ [result] })

/-- The next step of the verifier, unless it has to wait, has no challenge or has verified
everything. -/
def verifierNext [DecidableEq E] (m : Meeting E) : Option (Meeting E) :=
  match m.statements, m.verifier.received, m.verifier.session.first with
  | [], _, _ => none
  | _ :: _, none, first =>
    if first.isNone && m.verifier.session.verifier.challenge.isNone then none
    else
      match MemoryPair.receive .b m.pair with
      | (.error _, _) => none
      | (.ok frame, pair) =>
        some { m with verifier := { m.verifier with received := some frame }, pair }
  | _ :: _, some frame, none =>
    let (result, session, pair, log) := m.verifier.session.challengeProver
      ((MemoryPair.channel .b).handing frame).logged (m.pair, m.verifier.log)
    some { m.withVerifier session pair log with calls := m.calls ++ [result] }
  | statement :: statements, some frame, some _ =>
    let (result, session, pair, log) := m.verifier.session.conclude
      ((MemoryPair.channel .b).handing frame).logged statement (m.pair, m.verifier.log)
    some { m.withVerifier session pair log with
           statements, verdicts := m.verdicts ++ [result] }

/-- Whether the verifier may choose a challenge: it is in no call and in no run. -/
def mayChoose (m : Meeting E) : Bool :=
  m.verifier.received.isNone && m.verifier.session.first.isNone

/-- Whether a call is out of order. Nobody is called while in a call. -/
def outOfOrder (m : Meeting E) : Stray E → Bool
  | .sendFirst _ => m.prover.received.isNone && m.prover.session.isWaiting
  | .sendSecond => m.prover.received.isNone && !m.prover.session.isWaiting
  | .challengeProver => m.verifier.received.isNone &&
      (m.verifier.session.first.isSome || m.verifier.session.verifier.challenge.isNone)
  | .conclude _ => m.verifier.received.isNone && m.verifier.session.first.isNone

/-- A call out of order. -/
def callStray [DecidableEq E] (m : Meeting E) : Stray E → Sampling (Meeting E)
  | .sendFirst input => do
    let (result, session, pair, log) ←
      m.prover.session.sendFirst (MemoryPair.channel .a).logged input (m.pair, m.prover.log)
    return { m.withProver session pair log with strays := m.strays ++ [result] }
  | .sendSecond =>
    let (result, session, pair, log) :=
      m.prover.session.sendSecond (MemoryPair.channel .a).logged (m.pair, m.prover.log)
    return { m.withProver session pair log with strays := m.strays ++ [result] }
  | .challengeProver =>
    let (result, session, pair, log) :=
      m.verifier.session.challengeProver (MemoryPair.channel .b).logged (m.pair, m.verifier.log)
    return { m.withVerifier session pair log with strays := m.strays ++ [result] }
  | .conclude statement =>
    let (result, session, pair, log) :=
      m.verifier.session.conclude (MemoryPair.channel .b).logged statement (m.pair, m.verifier.log)
    return { m.withVerifier session pair log with
             strays := m.strays ++ [result.map fun _ => ()] }

/-- What happens; where an action is not possible, nothing. -/
def step [DecidableEq E] (m : Meeting E) : Action E → Sampling (Meeting E)
  | .prover => m.proverNext.getD (return m)
  | .verifier => return m.verifierNext.getD m
  | .draw =>
    if m.mayChoose then do
      let (_, session) ← m.verifier.session.drawChallenge
      return { m with verifier := { m.verifier with session } }
    else return m
  | .keep challenge =>
    match m.mayChoose, m.verifier.session.keepChallenge challenge with
    | true, .ok session => return { m with verifier := { m.verifier with session } }
    | _, _ => return m
  | .stray call => if m.outOfOrder call then m.callStray call else return m

/-- One action after another. -/
def run [DecidableEq E] (m : Meeting E) : List (Action E) → Sampling (Meeting E)
  | [] => return m
  | action :: actions => do run (← m.step action) actions

end Meeting

/-! ## Calls out of order -/

section Refused

variable (channel : Channel C) (c : C)

theorem ProverSession.sendFirst_refused {session : ProverSession E}
    (h : session.isWaiting = true) (input : Witnessed E) :
    sendFirst channel session input c =
      pure (.error (.illegalState .firstMessageAgain), session, c) := by
  rw [sendFirst, if_pos h]

theorem ProverSession.sendSecond_refused {session : ProverSession E}
    (h : session.isWaiting = false) : sendSecond channel session c =
      (.error (.illegalState .secondMessageBeforeFirst), session, c) := by
  simp [sendSecond, h]

theorem VerifierSession.challengeProver_refused {session : VerifierSession E}
    (h : session.first.isSome = true ∨ session.verifier.challenge = none) :
    ∃ misuse, challengeProver channel session c =
      (.error (.illegalState misuse), session, c) := by
  unfold challengeProver
  split
  · exact ⟨_, rfl⟩
  · rename_i hidle
    rw [h.resolve_left hidle]
    exact ⟨_, rfl⟩

theorem VerifierSession.conclude_refused [DecidableEq E] {session : VerifierSession E}
    (h : session.first = none) (statement : Statement E) : conclude channel session statement c =
      (.error (.illegalState .verdictBeforeChallengeSent), session, c) := by
  simp only [conclude, h]

/-- A call out of order is refused, and changes nothing. -/
theorem Meeting.callStray_refused [DecidableEq E] {m : Meeting E} {call : Stray E}
    (h : m.outOfOrder call = true) : ∃ misuse, m.callStray call =
      pure { m with strays := m.strays ++ [.error (.illegalState misuse)] } := by
  obtain ⟨⟨ps, pr, pl⟩, ⟨vs, vr, vl⟩, pair, inputs, statements, calls, verdicts, strays⟩ := m
  cases call with
  | sendFirst input =>
    simp only [outOfOrder, Bool.and_eq_true, Option.isNone_iff_eq_none] at h
    obtain ⟨rfl, hwaiting⟩ := h
    exact ⟨_, by rw [callStray, ProverSession.sendFirst_refused _ _ hwaiting]; rfl⟩
  | sendSecond =>
    simp only [outOfOrder, Bool.and_eq_true, Option.isNone_iff_eq_none, Bool.not_eq_true'] at h
    obtain ⟨rfl, hwaiting⟩ := h
    exact ⟨_, by rw [callStray, ProverSession.sendSecond_refused _ _ hwaiting]; rfl⟩
  | challengeProver =>
    simp only [outOfOrder, Bool.and_eq_true, Option.isNone_iff_eq_none, Bool.or_eq_true] at h
    obtain ⟨rfl, hbusy⟩ := h
    obtain ⟨misuse, hrefused⟩ := VerifierSession.challengeProver_refused
      (MemoryPair.channel .b).logged (pair, vl) hbusy
    exact ⟨misuse, by rw [callStray, hrefused]; rfl⟩
  | conclude statement =>
    simp only [outOfOrder, Bool.and_eq_true, Option.isNone_iff_eq_none] at h
    obtain ⟨rfl, hidle⟩ := h
    exact ⟨_, by rw [callStray, VerifierSession.conclude_refused _ _ hidle]; rfl⟩

end Refused

/-! ## What was moved -/

section Logs

variable (channel : Channel C) (c : C) (log : List Event)

theorem ProverSession.prefix_sendFirst (session : ProverSession E) (input : Witnessed E) :
    (sendFirst channel.logged session input (c, log)).Always fun (_, _, _, log') =>
      log <+: log' := by
  unfold sendFirst
  split
  · exact List.prefix_refl log
  rw [Sampling.always_bind]
  refine Sampling.always_of_forall ?_
  rintro ⟨err | first, prover⟩
  · exact List.prefix_refl log
  · obtain ⟨c', -, hs⟩ | ⟨err, c', -, hs⟩ :=
      channel.logged_send_cases first.toBytes.toFrame c log
    · simp only [hs]
      exact List.prefix_append ..
    · simp only [hs]
      exact List.prefix_refl log

theorem ProverSession.prefix_sendSecond (session : ProverSession E) :
    log <+: (sendSecond channel.logged session (c, log)).2.2.2 := by
  unfold sendSecond
  split
  · exact List.prefix_refl log
  obtain ⟨frame, c', -, hr⟩ | ⟨err, c', -, hr⟩ := channel.logged_receive_cases c log
  · simp only [hr]
    rcases session.prover.respond (Bytes.ofFrame frame) with ⟨err | second, prover⟩
    · exact List.prefix_append ..
    · obtain ⟨c'', -, hs⟩ | ⟨err, c'', -, hs⟩ := channel.logged_send_cases
        second.toBytes.toFrame c' (log ++ [.received (Bytes.ofFrame frame)])
      · simp only [hs, List.append_assoc]
        exact List.prefix_append ..
      · simp only [hs]
        exact List.prefix_append ..
  · simp only [hr]
    exact List.prefix_refl log

end Logs

namespace Meeting

theorem prefix_proverNext {m : Meeting E} {next : Sampling (Meeting E)}
    (h : m.proverNext = some next) : next.Always fun m' => m.prover.log <+: m'.prover.log := by
  unfold proverNext at h
  split at h
  · split at h
    · cases h
    · rename_i input inputs _
      cases h
      rw [Sampling.always_bind]
      exact m.prover.session.prefix_sendFirst _ m.pair m.prover.log input
  · split at h
    · cases h
    · cases h
      exact List.prefix_refl m.prover.log
  · rename_i frame _ _
    cases h
    exact m.prover.session.prefix_sendSecond ((MemoryPair.channel .a).handing frame) m.pair
      m.prover.log

variable [DecidableEq E]

theorem prefix_verifierNext {m m' : Meeting E} (h : m.verifierNext = some m') :
    m.prover.log <+: m'.prover.log := by
  unfold verifierNext at h
  split at h
  · cases h
  · split at h
    · cases h
    · split at h
      · cases h
      · cases h
        exact List.prefix_refl m.prover.log
  · cases h
    exact List.prefix_refl m.prover.log
  · cases h
    exact List.prefix_refl m.prover.log

theorem prefix_callStray (m : Meeting E) (call : Stray E) :
    (m.callStray call).Always fun m' => m.prover.log <+: m'.prover.log := by
  cases call with
  | sendFirst input =>
    rw [callStray, Sampling.always_bind]
    exact m.prover.session.prefix_sendFirst _ m.pair m.prover.log input
  | sendSecond => exact m.prover.session.prefix_sendSecond _ m.pair m.prover.log
  | challengeProver => exact List.prefix_refl m.prover.log
  | conclude statement => exact List.prefix_refl m.prover.log

/-- What the prover has moved stays on its log. -/
theorem prefix_step (m : Meeting E) (action : Action E) :
    (m.step action).Always fun m' => m.prover.log <+: m'.prover.log := by
  have hsame : (pure m : Sampling (Meeting E)).Always fun m' => m.prover.log <+: m'.prover.log :=
    List.prefix_refl m.prover.log
  cases action with
  | prover =>
    rw [step]
    cases h : m.proverNext with
    | none => exact hsame
    | some next => exact prefix_proverNext h
  | verifier =>
    rw [step]
    cases h : m.verifierNext with
    | none => exact hsame
    | some m' => exact prefix_verifierNext h
  | draw =>
    rw [step]
    split
    · rw [Sampling.always_bind]
      exact Sampling.always_of_forall fun _ => hsame
    · exact hsame
  | keep challenge =>
    rw [step]
    split
    · exact hsame
    · exact hsame
  | stray call =>
    rw [step]
    split
    · exact m.prefix_callStray call
    · exact hsame

end Meeting

end SigmaProofs
