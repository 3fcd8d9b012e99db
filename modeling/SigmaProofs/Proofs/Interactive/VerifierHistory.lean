import SigmaProofs.Channel.Memory
import SigmaProofs.Interactive.ProverSession
import SigmaProofs.Interactive.VerifierSession
import SigmaProofs.Proofs.Interactive.Log
import SigmaProofs.Proofs.Relation
import SigmaProofs.Proofs.Verdict

/-!
# Histories of a verifier in a conversation

A session is called any number of times, in any order, over any channel. The challenges that it
chooses and the frames that it moves are recorded.

* `VerifierSession.run`: what the calls give, and what they record. `step_erase` says that recording
  changes nothing.
* `VerifierSession.OnRecord`: while a run is open, the record tells which challenge was sent and
  which challenges were chosen since, and the verifier keeps the last of them. Each call keeps this
  (`OnRecord.step`), and so does every run (`OnRecord.run`).
* `VerifierSession.verdict_under_last_challenge`: a verdict is given under the challenge that was
  sent, unless another one was chosen after it; then it is given under that one.
* `VerifierSession.interrupted_rejected`: a call out of order chooses a challenge, so that an honest
  response is rejected.
-/

namespace SigmaProofs.VerifierSession

variable {E C : Type} [DecidableEq E]

/-- A call of a session, or a change of the channel between two calls. -/
inductive Call (E C : Type) where
  | drawChallenge
  | keepChallenge (challenge : Bytes)
  | challengeProver
  | conclude (statement : Statement E)
  | verify (statement : Statement E)
  /-- The channel changes: its other end is used, or dropped. -/
  | elsewhere (c : C)

/-- What a call gave. -/
inductive Reply where
  | drew (challenge : Bytes)
  | kept (result : Except Deviation Unit)
  | challenged (result : Except ProtocolError Unit)
  | concluded (result : Except ProtocolError Bool)
  | verified (result : Except ProtocolError Bool)
  | elsewhere
deriving DecidableEq

/-- A call, with the session and the channel afterwards. -/
def perform (channel : Channel C) (session : VerifierSession E) (c : C) :
    Call E C → Sampling (Reply × VerifierSession E × C)
  | .drawChallenge => do
    let (challenge, session) ← session.drawChallenge
    return (.drew challenge, session, c)
  | .keepChallenge challenge =>
    match session.keepChallenge challenge with
    | .ok session => return (.kept (.ok ()), session, c)
    | .error fault => return (.kept (.error fault), session, c)
  | .challengeProver =>
    let (result, session, c) := challengeProver channel session c
    return (.challenged result, session, c)
  | .conclude statement =>
    let (result, session, c) := conclude channel session statement c
    return (.concluded result, session, c)
  | .verify statement => do
    let (result, session, c) ← verify channel session statement c
    return (.verified result, session, c)
  | .elsewhere c => return (.elsewhere, session, c)

/-- A call that is recorded. -/
def step (channel : Channel C) (session : VerifierSession E) (c : C) (log : List Event) :
    Call E C → Sampling (Reply × VerifierSession E × C × List Event)
  | .drawChallenge => do
    let (challenge, session) ← session.drawChallenge
    return (.drew challenge, session, c, log ++ [.chose challenge])
  | .keepChallenge challenge =>
    match session.keepChallenge challenge with
    | .ok session => return (.kept (.ok ()), session, c, log ++ [.chose challenge])
    | .error fault => return (.kept (.error fault), session, c, log)
  | .challengeProver =>
    let (result, session, c) := challengeProver channel.logged session (c, log)
    return (.challenged result, session, c)
  | .conclude statement =>
    let (result, session, c) := conclude channel.logged session statement (c, log)
    return (.concluded result, session, c)
  | .verify statement => do
    let (challenge, session) ← session.drawChallenge
    match challengeProver channel.logged session (c, log ++ [.chose challenge]) with
    | (.error err, session, c) => return (.verified (.error err), session, c)
    | (.ok (), session, c) =>
      let (result, session, c) := conclude channel.logged session statement c
      return (.verified result, session, c)
  | .elsewhere c => return (.elsewhere, session, c, log)

/-- Several calls, one after another. -/
def run (channel : Channel C) (session : VerifierSession E) (c : C) (log : List Event) :
    List (Call E C) → Sampling (List Reply × VerifierSession E × C × List Event)
  | [] => return ([], session, c, log)
  | call :: calls => do
    let (reply, session, c, log) ← step channel session c log call
    let (replies, session, c, log) ← run channel session c log calls
    return (reply :: replies, session, c, log)

/-! ## Recording changes nothing -/

omit [DecidableEq E] in
theorem challengeProver_erase (channel : Channel C) (session : VerifierSession E) (c : C)
    (log : List Event) :
    challengeProver channel session c =
      Prod.map id (Prod.map id Prod.fst) (challengeProver channel.logged session (c, log)) := by
  unfold challengeProver
  split
  · rfl
  cases session.verifier.challenge with
  | none => rfl
  | some challenge =>
    obtain ⟨frame, c₁, hr, hlogged⟩ | ⟨err, c₁, hr, hlogged⟩ :=
      channel.logged_receive_cases c log
    · simp only [hr, hlogged]
      cases Message.ofFrame (Bytes.ofFrame frame) with
      | error err => rfl
      | ok first =>
        obtain ⟨c₂, hs, hlogged'⟩ | ⟨err, c₂, hs, hlogged'⟩ := channel.logged_send_cases
          challenge.toFrame c₁ (log ++ [.received (Bytes.ofFrame frame)])
        · simp only [hs, hlogged']
          rfl
        · simp only [hs, hlogged']
          rfl
    · simp only [hr, hlogged]
      rfl

theorem conclude_erase (channel : Channel C) (session : VerifierSession E)
    (statement : Statement E) (c : C) (log : List Event) :
    conclude channel session statement c =
      Prod.map id (Prod.map id Prod.fst)
        (conclude channel.logged session statement (c, log)) := by
  unfold conclude
  cases session.first with
  | none => rfl
  | some first =>
    obtain ⟨frame, c₁, hr, hlogged⟩ | ⟨err, c₁, hr, hlogged⟩ :=
      channel.logged_receive_cases c log
    · simp only [hr, hlogged]
      cases Message.ofFrame (Bytes.ofFrame frame) with
      | error err => rfl
      | ok second => rfl
    · simp only [hr, hlogged]
      rfl

/-- Without the record, a recorded call is the call. -/
theorem step_erase (channel : Channel C) (session : VerifierSession E) (c : C) (log : List Event)
    (call : Call E C) :
    Prod.map id (Prod.map id Prod.fst) <$> step channel session c log call =
      perform channel session c call := by
  cases call with
  | drawChallenge => simp [step, perform, VerifierSession.drawChallenge]
  | keepChallenge challenge =>
    simp only [step, perform]
    cases session.keepChallenge challenge <;> rfl
  | challengeProver => rw [perform, challengeProver_erase channel session c log]; rfl
  | conclude statement => rw [perform, conclude_erase channel session statement c log]; rfl
  | verify statement =>
    simp only [step, perform, verify, map_bind, bind_assoc]
    refine bind_congr ?_
    rintro ⟨challenge, session⟩
    dsimp only
    rw [challengeProver_erase channel session c (log ++ [.chose challenge])]
    generalize challengeProver channel.logged session (c, log ++ [.chose challenge]) = challenged
    obtain ⟨err | _, session', c', log'⟩ := challenged
    · rfl
    · simp only [Prod.map, id, pure_bind, conclude_erase channel session' statement c' log']
      rfl
  | elsewhere c' => rfl

/-! ## What the record tells -/

/-- The record ends with an open run: `first` was received and `sent` was sent, and since then the
challenges `chosen` were chosen. -/
def OpenRun (log : List Event) (first : Message) (sent : Bytes) (chosen : List Bytes) : Prop :=
  ∃ earlier f, Message.ofFrame f = .ok first ∧
    log = earlier ++ [.received f, .sent sent] ++ chosen.map .chose

/-- The challenge under which the verdict on an open run is given. -/
def lastChallenge (sent : Bytes) (chosen : List Bytes) : Bytes := chosen.getLastD sent

theorem OpenRun.choose {log : List Event} {first : Message} {sent : Bytes} {chosen : List Bytes}
    (h : OpenRun log first sent chosen) (challenge : Bytes) :
    OpenRun (log ++ [.chose challenge]) first sent (chosen ++ [challenge]) := by
  obtain ⟨earlier, f, hf, rfl⟩ := h
  exact ⟨earlier, f, hf, by simp⟩

/-- How a call for a verdict ends, with the record before and after it. -/
inductive Concluded (P : Protocol E) (statement : Statement E) (log : List Event) :
    Except ProtocolError Bool → List Event → Prop
  /-- No run is open. -/
  | refused : Concluded P statement log (.error (.illegalState .verdictBeforeChallengeSent)) log
  /-- No frame is received. -/
  | lost (err : ChannelError) :
    Concluded P statement log (.error (.communication .receivingSecond err)) log
  | unreadable {z : Bytes} {err : ProtocolError} (h : Message.ofFrame z = .error err) :
    Concluded P statement log (.error err) (log ++ [.received z])
  | judged {first second : Message} {z sent : Bytes} {chosen : List Bytes}
    (hopen : OpenRun log first sent chosen) (hz : Message.ofFrame z = .ok second) :
    Concluded P statement log
      (P.verdict (lastChallenge sent chosen) statement first second) (log ++ [.received z])

/-- How a run with a fresh challenge ends, with the record before and after it. -/
inductive Verified (P : Protocol E) (statement : Statement E) (log : List Event) :
    Except ProtocolError Bool → List Event → Prop
  /-- A challenge is chosen in any case, but it is not sent. -/
  | stopped (challenge : Bytes) (err : ProtocolError) {moved : List Event}
    (h : ∀ frame, .sent frame ∉ moved) :
    Verified P statement log (.error err) (log ++ .chose challenge :: moved)
  /-- It is sent, and none is chosen before the verdict. -/
  | concluded (challenge : Bytes) {f : Bytes} {first : Message} (hf : Message.ofFrame f = .ok first)
    {result : Except ProtocolError Bool} {log' : List Event}
    (h : Concluded P statement (log ++ [.chose challenge, .received f, .sent challenge])
      result log') : Verified P statement log result log'

/-- While a run is open, the verifier keeps the last challenge. -/
structure OnRecord (P : Protocol E) (session : VerifierSession E) (log : List Event) : Prop where
  protocol_eq : session.verifier.protocol = P
  open_run : ∀ first, session.first = some first → ∃ sent chosen, OpenRun log first sent chosen ∧
    session.verifier.challenge = some (lastChallenge sent chosen)

omit [DecidableEq E] in
theorem protocol_abandon (session : VerifierSession E) :
    session.abandon.verifier.protocol = session.verifier.protocol :=
  Verifier.protocol_reset session.verifier

omit [DecidableEq E] in
/-- Where no run is open, there is nothing to tell. -/
theorem OnRecord.of_first_eq_none {P : Protocol E} {session : VerifierSession E}
    (hP : session.verifier.protocol = P) (hfirst : session.first = none) (log : List Event) :
    OnRecord P session log where
  protocol_eq := hP
  open_run first h := by
    rw [hfirst] at h
    cases h

/-- The session with another challenge for its verifier. -/
def put (session : VerifierSession E) (challenge : Bytes) : VerifierSession E :=
  { session with verifier := session.verifier.withSlot (session.verifier.slot.put challenge) }

omit [DecidableEq E] in
@[simp] theorem challenge_put (session : VerifierSession E) (challenge : Bytes) :
    (session.put challenge).verifier.challenge = some challenge :=
  Verifier.challenge_put session.verifier challenge

omit [DecidableEq E] in
/-- A challenge that is chosen takes the place of the one that was sent. -/
theorem OnRecord.put {P : Protocol E} {session : VerifierSession E} {log : List Event}
    (h : OnRecord P session log) (challenge : Bytes) :
    OnRecord P (session.put challenge) (log ++ [.chose challenge]) where
  protocol_eq := (Verifier.protocol_put _ challenge).trans h.protocol_eq
  open_run first hfirst := by
    obtain ⟨sent, chosen, hopen, -⟩ := h.open_run first hfirst
    refine ⟨sent, chosen ++ [challenge], hopen.choose challenge, ?_⟩
    rw [challenge_put, lastChallenge, List.getLastD_concat]

omit [DecidableEq E] in
/-- Sending the challenge opens a run with the challenge that is kept, or it sends nothing. -/
theorem challengeProver_onRecord {P : Protocol E} {session session' : VerifierSession E}
    {log log' : List Event} {channel : Channel C} {c c' : C} {result : Except ProtocolError Unit}
    (h : OnRecord P session log)
    (hrun : challengeProver channel.logged session (c, log) = (result, session', c', log')) :
    OnRecord P session' log' ∧
      ((∃ err moved, result = .error err ∧ log' = log ++ moved ∧ ∀ frame, .sent frame ∉ moved) ∨
        ∃ f first challenge, result = .ok () ∧ session.verifier.challenge = some challenge ∧
          Message.ofFrame f = .ok first ∧ log' = log ++ [.received f, .sent challenge]) := by
  have hnothing : log = log ++ [] := (List.append_nil log).symm
  have habandon := (protocol_abandon session).trans h.protocol_eq
  cases hidle : session.first with
  | some first =>
    simp only [challengeProver, hidle, Option.isSome_some, if_true] at hrun
    cases hrun
    exact ⟨h, .inl ⟨_, [], rfl, hnothing, by simp⟩⟩
  | none =>
  simp only [challengeProver, hidle, Option.isSome_none, Bool.false_eq_true, if_false] at hrun
  cases hchallenge : session.verifier.challenge with
  | none =>
    simp only [hchallenge] at hrun
    cases hrun
    exact ⟨h, .inl ⟨_, [], rfl, hnothing, by simp⟩⟩
  | some challenge =>
    simp only [hchallenge] at hrun
    obtain ⟨frame, c₁, -, hr⟩ | ⟨err, c₁, -, hr⟩ := channel.logged_receive_cases c log
    · simp only [hr] at hrun
      cases hf : Message.ofFrame (Bytes.ofFrame frame) with
      | error err =>
        simp only [hf] at hrun
        cases hrun
        exact ⟨.of_first_eq_none habandon hidle _, .inl ⟨err, _, rfl, rfl, by simp⟩⟩
      | ok first =>
        simp only [hf] at hrun
        obtain ⟨c₂, -, hs⟩ | ⟨err, c₂, -, hs⟩ := channel.logged_send_cases
          challenge.toFrame c₁ (log ++ [.received (Bytes.ofFrame frame)])
        · simp only [hs, Bytes.ofFrame_toFrame, List.append_assoc, List.cons_append,
            List.nil_append] at hrun
          cases hrun
          refine ⟨⟨h.protocol_eq, fun first' hfirst' => ?_⟩,
            .inr ⟨_, first, challenge, rfl, rfl, hf, rfl⟩⟩
          obtain rfl := Option.some.inj hfirst'
          exact ⟨challenge, [], ⟨log, _, hf, by simp⟩, hchallenge⟩
        · simp only [hs] at hrun
          cases hrun
          exact ⟨.of_first_eq_none habandon hidle _, .inl ⟨_, _, rfl, rfl, by simp⟩⟩
    · simp only [hr] at hrun
      cases hrun
      exact ⟨.of_first_eq_none habandon hidle _, .inl ⟨_, [], rfl, hnothing, by simp⟩⟩

/-- A call for a verdict closes the run, and judges under the last challenge if it judges. -/
theorem conclude_onRecord {P : Protocol E} {session session' : VerifierSession E}
    {log log' : List Event} {channel : Channel C} {statement : Statement E} {c c' : C}
    {result : Except ProtocolError Bool} (h : OnRecord P session log)
    (hrun : conclude channel.logged session statement (c, log) = (result, session', c', log')) :
    OnRecord P session' log' ∧ Concluded P statement log result log' := by
  have habandon := (protocol_abandon { session with first := none }).trans h.protocol_eq
  cases hfirst : session.first with
  | none =>
    simp only [conclude, hfirst] at hrun
    cases hrun
    exact ⟨h, .refused⟩
  | some first =>
    simp only [conclude, hfirst] at hrun
    obtain ⟨sent, chosen, hopen, hkept⟩ := h.open_run first hfirst
    obtain ⟨frame, c₁, -, hr⟩ | ⟨err, c₁, -, hr⟩ := channel.logged_receive_cases c log
    · simp only [hr] at hrun
      cases hz : Message.ofFrame (Bytes.ofFrame frame) with
      | error err =>
        simp only [hz] at hrun
        cases hrun
        exact ⟨.of_first_eq_none habandon rfl _, .unreadable hz⟩
      | ok second =>
        simp only [hz, Verifier.verify_fst hkept, h.protocol_eq] at hrun
        cases hrun
        refine ⟨.of_first_eq_none ?_ rfl _, .judged hopen hz⟩
        exact (Verifier.protocol_verify ..).trans h.protocol_eq
    · simp only [hr] at hrun
      cases hrun
      exact ⟨.of_first_eq_none habandon rfl _, .lost err⟩

omit [DecidableEq E] in
/-- A challenge that is drawn has the right length. -/
theorem drawChallenge_always (session : VerifierSession E) :
    session.drawChallenge.Always fun (challenge, session') =>
      challenge.length = session.verifier.protocol.soundness.byteLength ∧
        session' = session.put challenge := by
  simp only [VerifierSession.drawChallenge, Verifier.drawChallenge, Sampling.always_bind,
    Verifier.soundness_protocol]
  exact fun challenge hlen => ⟨hlen, rfl⟩

omit [DecidableEq E] in
/-- So has one that is kept. -/
theorem keepChallenge_eq_ok {session session' : VerifierSession E} {challenge : Bytes}
    (h : session.keepChallenge challenge = .ok session') :
    challenge.length = session.verifier.protocol.soundness.byteLength ∧
      session' = session.put challenge := by
  obtain ⟨verifier, hkeep, heq⟩ := bind_eq_ok.mp h
  obtain ⟨_, hrequire, hput⟩ := bind_eq_ok.mp hkeep
  cases hput
  cases heq
  rw [Verifier.soundness_protocol]
  exact ⟨requireChallenge_eq_ok.mp hrequire, rfl⟩

/-! ## Every run -/

/-- A run with a fresh challenge judges under that challenge, if it judges. -/
theorem verify_onRecord {P : Protocol E} {session : VerifierSession E} {log : List Event}
    (h : OnRecord P session log) (channel : Channel C) (statement : Statement E) (c : C) :
    (step channel session c log (.verify statement)).Always fun (reply, session', _, log') =>
      OnRecord P session' log' ∧
        ∃ result, reply = .verified result ∧ Verified P statement log result log' := by
  simp only [step, Sampling.always_bind]
  refine session.drawChallenge_always.mono ?_
  rintro ⟨challenge, session₁⟩ ⟨-, rfl⟩
  have hput := h.put challenge
  dsimp only
  rcases hsent : challengeProver channel.logged (session.put challenge)
    (c, log ++ [.chose challenge]) with ⟨result, session₂, c₂, log₂⟩
  rw [hsent]
  obtain ⟨hon, ⟨err, moved, rfl, rfl, hmoved⟩ | ⟨f, first, sent, rfl, hkept, hf, rfl⟩⟩ :=
    challengeProver_onRecord hput hsent
  · refine ⟨hon, _, rfl, ?_⟩
    rw [List.append_assoc]
    exact .stopped challenge err hmoved
  · obtain rfl : challenge = sent :=
      Option.some.inj ((challenge_put session challenge).symm.trans hkept)
    rw [List.append_assoc] at hon
    rw [List.append_assoc]
    obtain ⟨hon', hconcluded⟩ := conclude_onRecord hon rfl
    exact ⟨hon', _, rfl, .concluded challenge hf hconcluded⟩

/-- Each call keeps session and record together. -/
theorem OnRecord.step {P : Protocol E} {session : VerifierSession E} {log : List Event}
    (h : OnRecord P session log) (channel : Channel C) (c : C) (call : Call E C) :
    (step channel session c log call).Always fun (_, session', _, log') =>
      OnRecord P session' log' := by
  cases call with
  | drawChallenge =>
    simp only [VerifierSession.step, Sampling.always_bind]
    refine session.drawChallenge_always.mono ?_
    rintro ⟨challenge, _⟩ ⟨-, rfl⟩
    exact h.put challenge
  | keepChallenge challenge =>
    rw [VerifierSession.step]
    split
    · rename_i session' hkeep
      rw [(keepChallenge_eq_ok hkeep).2]
      exact h.put challenge
    · exact h
  | challengeProver => exact (challengeProver_onRecord h rfl).1
  | conclude statement => exact (conclude_onRecord h rfl).1
  | verify statement =>
    refine (verify_onRecord h channel statement c).mono ?_
    rintro ⟨_, session', _, log'⟩ ⟨h', -⟩
    exact h'
  | elsewhere c' => exact h

/-- Every run keeps session and record together. -/
theorem OnRecord.run {P : Protocol E} {session : VerifierSession E} {log : List Event}
    (h : OnRecord P session log) (channel : Channel C) (c : C) (calls : List (Call E C)) :
    (run channel session c log calls).Always fun (_, session', _, log') =>
      OnRecord P session' log' := by
  induction calls generalizing session c log with
  | nil => exact h
  | cons call calls ih =>
    simp only [VerifierSession.run, Sampling.always_bind]
    refine (h.step channel c call).mono ?_
    rintro ⟨reply, session', c', log'⟩ h'
    refine (ih h' c').mono ?_
    rintro ⟨replies, session'', c'', log''⟩ h''
    exact h''

/-- After any calls over any channel, a verdict is given under the last challenge: the one that was
sent, if none was chosen after it. A run with a fresh challenge is judged under that challenge. -/
theorem verdict_under_last_challenge (v : Verifier E) (channel : Channel C) (c : C)
    (calls : List (Call E C)) (statement : Statement E) :
    (run channel { verifier := v } c [] calls).Always fun (_, session, c, log) =>
      let (result, _, _, log') := conclude channel.logged session statement (c, log)
      Concluded v.protocol statement log result log' ∧
      (step channel session c log (.verify statement)).Always fun (reply, _, _, log') =>
        ∃ result, reply = .verified result ∧ Verified v.protocol statement log result log' := by
  have hstart : OnRecord v.protocol ⟨v, none⟩ [] :=
    @OnRecord.of_first_eq_none _ _ ⟨v, none⟩ rfl rfl []
  refine (hstart.run channel c calls).mono ?_
  rintro ⟨_, session, c, log⟩ h
  refine ⟨(conclude_onRecord h rfl).2, ?_⟩
  refine (verify_onRecord h channel statement c).mono ?_
  rintro ⟨reply, session', c', log'⟩ ⟨-, h'⟩
  exact h'

/-! ## A call out of order -/

/-- A proof of knowledge of a discrete logarithm in the small group. -/
def smallDlog : Protocol Nat :=
  .leaf Protocol.smallSoundness (.dlog SchnorrGroup.small.toPrimeGroup)

/-- An honest run, but for a call for another one before the response is there. -/
def interrupted : Sampling (Reply × Except ProtocolError Unit × Reply × List Event) := do
  let (_, prover, pair) ← ProverSession.sendFirst (MemoryPair.channel .a)
    { prover := .ofProtocol smallDlog } ⟨.dlog 64, .exponent 3⟩ {}
  let (_, session, pair, log) ← run (MemoryPair.channel .b) { verifier := .ofProtocol smallDlog }
    pair [] [.keepChallenge [5], .challengeProver]
  let (refused, session, pair, log) ← step (MemoryPair.channel .b) session pair log
    (.verify (.dlog 64))
  let (answered, _, pair) := ProverSession.sendSecond (MemoryPair.channel .a) prover pair
  let (concluded, _, _, log) ← step (MemoryPair.channel .b) session pair log
    (.conclude (.dlog 64))
  return (refused, answered, concluded, log)

/-- The call is refused, but it chooses a challenge. The response is right for the challenge that
was sent, and it is rejected under the one that was not. -/
theorem interrupted_rejected :
    interrupted.replay [⟨.below 1019, (2 : Nat)⟩, ⟨.bytes 1, ([7] : Bytes)⟩] =
      some (.verified (.error (.illegalState .challengeAgain)), .ok (), .concluded (.ok false),
        [.chose [5], .received (Message.element [0, 16]).toBytes, .sent [5], .chose [7],
          .received (Message.integer 17).toBytes]) ∧
      smallDlog.verdict [5] (.dlog 64) (.element [0, 16]) (.integer 17) = .ok true := by
  constructor <;> decide +kernel

end SigmaProofs.VerifierSession
