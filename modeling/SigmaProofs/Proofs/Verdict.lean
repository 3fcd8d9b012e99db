import SigmaProofs.Proofs.Challenge
import SigmaProofs.Proofs.Steps
import SigmaProofs.Proofs.Tree

/-!
# Verdicts

A verdict depends on the protocol, the challenge, the statement and the messages alone:
`Protocol.verdict` says which it is, and a verifier gives it in whatever state it is
(`verify_fst`).

* `Verifier.verifyEach_put`, `Verifier.verifyEach_refused`: a composition puts the challenge of a
  branch into its slot and asks for the verdict under it, unless the branch refuses the challenge.
* `Verifier.protocol_verify`, `Verifier.challenge_verify`: a verdict leaves a verifier of the same
  protocol that keeps no challenge.
* `Verifier.Accepts`, `Verifier.Rejects`: a verifier that is given a challenge accepts or rejects a
  pair of messages.
* `verdict_all_eq_true`, `verdict_any_eq_true`: when a composition accepts, in terms of its
  branches.
-/

namespace SigmaProofs

variable {E : Type} [DecidableEq E]

namespace Protocol

mutual

/-- The verdict on two messages under a challenge. -/
def verdict : Protocol E → Bytes → Statement E → Message → Message → Except ProtocolError Bool
  | .leaf t l, challenge, statement, first, second =>
    l.verify t challenge statement first second
  | .adapted conversion inner, challenge, statement, first, second => do
    let statement ← asProtocolError (conversion.apply statement)
    verdict inner challenge statement first second
  | .all _ branches, challenge, statement, first, second => do
    let statements ← asProtocolError statement.expectAll
    asProtocolError (checkArity branches.length statements.length)
    match ← Verifier.messagesOfAll branches.length first second with
    | none => return false
    | some (firsts, seconds) =>
      verdictEach branches (List.replicate statements.length challenge) statements firsts seconds
  | .any _ branches, challenge, statement, first, second => do
    let statements ← asProtocolError statement.expectAny
    asProtocolError (checkArity branches.length statements.length)
    match ← Verifier.messagesOfAny branches.length challenge.length first second with
    | none => return false
    | some (firsts, challenges, seconds) =>
      (verdictEach branches challenges statements firsts seconds).map
        (Verifier.sharesAddUp challenge challenges && ·)

/-- Whether all branches accept, each under its own challenge. -/
def verdictEach : List (Protocol E) → List Bytes → List (Statement E) → List Message →
    List Message → Except ProtocolError Bool
  | branch :: branches, challenge :: challenges, statement :: statements, first :: firsts,
      second :: seconds => do
    (branch.soundness.requireChallenge challenge).mapError .deviation
    let accepted ← verdict branch challenge statement first second
    (verdictEach branches challenges statements firsts seconds).map (accepted && ·)
  | _, _, _, _, _ => return true

end

/-- Where branches or their inputs end, all have accepted. -/
theorem verdictEach_ends {bs : List (Protocol E)} {cs : List Bytes} {ss : List (Statement E)}
    {fs zs : List Message} (h : bs = [] ∨ cs = [] ∨ ss = [] ∨ fs = [] ∨ zs = []) :
    verdictEach bs cs ss fs zs = .ok true := by
  unfold verdictEach
  split
  · simp at h
  · rfl

end Protocol

namespace Verifier

section State

omit [DecidableEq E]

/-- Induction over a verifier: in a composition, the property may be used of all branches, whatever
challenges they hold. -/
@[elab_as_elim, induction_eliminator]
theorem induct {motive : Verifier E → Prop} (leaf : ∀ slot l, motive (.leaf slot l))
    (adapted : ∀ c v, motive v → motive (.adapted c v))
    (all : ∀ slot bs, (∀ b ∈ bs, ∀ slot', motive (b.withSlot slot')) → motive (.all slot bs))
    (any : ∀ slot bs, (∀ b ∈ bs, ∀ slot', motive (b.withSlot slot')) → motive (.any slot bs))
    (v : Verifier E) : motive v := by
  have h : ∀ slot, motive (v.withSlot slot) :=
    @Verifier.rec E (fun v => ∀ slot, motive (v.withSlot slot))
      (fun bs => ∀ b ∈ bs, ∀ slot, motive (b.withSlot slot)) (fun _ l slot => leaf slot l)
      (fun c v ih slot => adapted c (v.withSlot slot) (ih slot)) (fun _ bs ih slot => all slot bs ih)
      (fun _ bs ih slot => any slot bs ih) (by simp)
      (fun _ _ hb hbs => List.forall_mem_cons.mpr ⟨hb, hbs⟩) v
  simpa using h v.slot

theorem protocols_eq_map (vs : List (Verifier E)) : protocols vs = vs.map protocol := by
  induction vs with
  | nil => rfl
  | cons v vs ih => rw [protocols, List.map_cons, ih]

@[simp] theorem protocols_length (vs : List (Verifier E)) :
    (protocols vs).length = vs.length := by
  rw [protocols_eq_map, List.length_map]

theorem protocol_withSlot (slot : ChallengeSlot) : ∀ {v : Verifier E},
    slot.soundness = v.soundness → (v.withSlot slot).protocol = v.protocol
  | .leaf .., h => congrArg (Protocol.leaf · _) h
  | .adapted c inner, h => congrArg (Protocol.adapted c) (protocol_withSlot slot (v := inner) h)
  | .all .., h => congrArg (Protocol.all · _) h
  | .any .., h => congrArg (Protocol.any · _) h

/-- Keeping a challenge does not change the protocol. -/
@[simp] theorem protocol_put (v : Verifier E) (challenge : Bytes) :
    (v.put challenge).protocol = v.protocol :=
  protocol_withSlot _ rfl

@[simp] theorem challenge_put (v : Verifier E) (challenge : Bytes) :
    (v.put challenge).challenge = some challenge := by
  rw [Verifier.challenge, put, slot_withSlot]
  rfl

theorem keepChallenge_ok {v : Verifier E} {c : Bytes} (hc : c.length = v.soundness.byteLength) :
    v.keepChallenge c = .ok (v.put c) := by
  rw [keepChallenge, requireChallenge_ok hc, ok_bind]
  rfl

theorem keepChallenge_error {v : Verifier E} {c : Bytes} (hc : c.length ≠ v.soundness.byteLength) :
    v.keepChallenge c = .error (.challengeLength v.soundness.byteLength c.length) := by
  rw [keepChallenge, requireChallenge_error hc, error_bind]

end State

/-! ## Verdicts of several branches -/

section Branches

variable {v : Verifier E} {vs : List (Verifier E)} {c : Bytes} {cs : List Bytes} {s : Statement E}
  {ss : List (Statement E)} {f z : Message} {fs zs : List Message} {ops : ChallengeOps}

omit [DecidableEq E] in
/-- Induction along branches and what each of them is given. -/
@[elab_as_elim]
theorem each_induct {motive : List (Verifier E) → List Bytes → List (Statement E) →
      List Message → List Message → Prop}
    (ends : ∀ vs cs ss fs zs, vs = [] ∨ cs = [] ∨ ss = [] ∨ fs = [] ∨ zs = [] →
      motive vs cs ss fs zs)
    (next : ∀ v vs c cs s ss f fs z zs, motive vs cs ss fs zs →
      motive (v :: vs) (c :: cs) (s :: ss) (f :: fs) (z :: zs)) :
    ∀ vs cs ss fs zs, motive vs cs ss fs zs
  | v :: vs, c :: cs, s :: ss, f :: fs, z :: zs =>
    next v vs c cs s ss f fs z zs (each_induct ends next vs cs ss fs zs)
  | [], _, _, _, _ => ends _ _ _ _ _ (by simp)
  | _ :: _, [], _, _, _ => ends _ _ _ _ _ (by simp)
  | _ :: _, _ :: _, [], _, _ => ends _ _ _ _ _ (by simp)
  | _ :: _, _ :: _, _ :: _, [], _ => ends _ _ _ _ _ (by simp)
  | _ :: _, _ :: _, _ :: _, _ :: _, [] => ends _ _ _ _ _ (by simp)

/-- A branch refuses a challenge of another length, and no verdict is asked of it. -/
theorem verifyEach_refused (hc : c.length ≠ v.soundness.byteLength) :
    verifyEach (v :: vs) (c :: cs) (s :: ss) (f :: fs) (z :: zs) ops =
      (.error (ops.refused (.challengeLength v.soundness.byteLength c.length)), v :: vs) := by
  rw [verifyEach]
  split
  · rename_i fault hkeep
    rw [keepChallenge_error hc] at hkeep
    cases hkeep
    rfl
  · rename_i v' hkeep
    rw [keepChallenge_error hc] at hkeep
    cases hkeep

/-- A branch gives its verdict under the challenge that was put into it. -/
theorem verifyEach_put (hc : c.length = v.soundness.byteLength) :
    verifyEach (v :: vs) (c :: cs) (s :: ss) (f :: fs) (z :: zs) ops =
      match (v.put c).verify s f z ops with
      | (.error err, v') => (.error err, v' :: vs)
      | (.ok verdict, v') => ((verifyEach vs cs ss fs zs ops).1.map (verdict && ·),
          v' :: (verifyEach vs cs ss fs zs ops).2) := by
  rw [verifyEach]
  split
  · rename_i fault hkeep
    rw [keepChallenge_ok hc] at hkeep
    cases hkeep
  · rename_i v' hkeep
    rw [keepChallenge_ok hc] at hkeep
    cases hkeep
    rfl

theorem verifyEach_ends (h : vs = [] ∨ cs = [] ∨ ss = [] ∨ fs = [] ∨ zs = []) :
    verifyEach vs cs ss fs zs ops = (.ok true, vs) := by
  unfold verifyEach
  split
  · simp at h
  · rfl

/-- What verdicts of branches that were given their challenges do not change is the same for all
branches, wherever the verdicts end. -/
theorem verifyEach_keeps {α : Type} {observe : Verifier E → α}
    (h : ∀ v ∈ vs, ∀ c s f z, observe ((v.put c).verify s f z).2 = observe v) :
    (verifyEach vs cs ss fs zs).2.map observe = vs.map observe := by
  induction vs, cs, ss, fs, zs using each_induct with
  | ends vs cs ss fs zs hends => rw [verifyEach_ends hends]
  | next v vs c cs s ss f fs z zs ih =>
    obtain ⟨hv, hvs⟩ := List.forall_mem_cons.mp h
    by_cases hc : c.length = v.soundness.byteLength
    · have hkept := hv c s f z
      rw [verifyEach_put hc]
      rcases hverify : (v.put c).verify s f z with ⟨verdict, v'⟩
      rw [hverify] at hkept
      cases verdict with
      | error err => simp [hkept]
      | ok verdict => simp [hkept, ih hvs]
    · rw [verifyEach_refused hc]

end Branches

/-! ## The verdict under the challenge that is held -/

theorem verifyEach_fst {vs : List (Verifier E)} {cs : List Bytes} {ss : List (Statement E)}
    {fs zs : List Message} (h : ∀ v ∈ vs, ∀ c s f z,
      ((v.put c).verify s f z).1 = v.protocol.verdict c s f z) :
    (verifyEach vs cs ss fs zs).1 = Protocol.verdictEach (protocols vs) cs ss fs zs := by
  induction vs, cs, ss, fs, zs using each_induct with
  | ends vs cs ss fs zs hends =>
    rw [verifyEach_ends hends, Protocol.verdictEach_ends]
    rwa [protocols_eq_map, List.map_eq_nil_iff]
  | next v vs c cs s ss f fs z zs ih =>
    obtain ⟨hv, hvs⟩ := List.forall_mem_cons.mp h
    rw [protocols, Protocol.verdictEach, soundness_protocol]
    by_cases hc : c.length = v.soundness.byteLength
    · rw [verifyEach_put hc, requireChallenge_ok hc, ← hv, ← ih hvs]
      rcases (v.put c).verify s f z with ⟨_ | verdict, v'⟩ <;> rfl
    · rw [verifyEach_refused hc, requireChallenge_error hc]
      rfl

/-- A verifier that keeps a challenge gives the verdict under it, whatever its branches keep. -/
theorem verify_fst {challenge : Bytes} {v : Verifier E} (h : v.challenge = some challenge)
    (statement : Statement E) (first second : Message) :
    (v.verify statement first second).1 = v.protocol.verdict challenge statement first second := by
  induction v generalizing challenge statement first second with
  | leaf slot l =>
    have hslot : slot.challenge = some challenge := h
    simp only [verify, hslot]
    rfl
  | adapted conversion inner ih =>
    rw [verify, protocol, Protocol.verdict]
    cases conversion.apply statement with
    | error err => rfl
    | ok statement => exact ih h statement first second
  | all slot bs ih =>
    have hslot : slot.challenge = some challenge := h
    have heach : ∀ b ∈ bs, ∀ c s f z,
        ((b.put c).verify s f z).1 = b.protocol.verdict c s f z := fun b hb c s f z => by
      rw [← protocol_put b c]
      exact ih b hb _ (challenge_put b c) s f z
    simp only [verify, hslot, protocol, Protocol.verdict, protocols_length]
    cases statement.expectAll with
    | error err => rfl
    | ok statements =>
      simp only [asProtocolError_ok, ok_bind]
      cases checkArity bs.length statements.length with
      | error err => rfl
      | ok =>
        simp only [asProtocolError_ok, ok_bind]
        cases messagesOfAll bs.length first second with
        | error err => rfl
        | ok messages =>
          obtain _ | ⟨firsts, seconds⟩ := messages
          · rfl
          · exact verifyEach_fst heach
  | any slot bs ih =>
    have hslot : slot.challenge = some challenge := h
    have heach : ∀ b ∈ bs, ∀ c s f z,
        ((b.put c).verify s f z).1 = b.protocol.verdict c s f z := fun b hb c s f z => by
      rw [← protocol_put b c]
      exact ih b hb _ (challenge_put b c) s f z
    simp only [verify, hslot, protocol, Protocol.verdict, protocols_length,
      ChallengeOps.addAll_plain]
    cases statement.expectAny with
    | error err => rfl
    | ok statements =>
      simp only [asProtocolError_ok, ok_bind]
      cases checkArity bs.length statements.length with
      | error err => rfl
      | ok =>
        simp only [asProtocolError_ok, ok_bind]
        cases messagesOfAny bs.length challenge.length first second with
        | error err => rfl
        | ok messages =>
          obtain _ | ⟨firsts, challenges, seconds⟩ := messages
          · rfl
          · exact congrArg (Except.map _) (verifyEach_fst heach)

/-! ## What is left of a verifier -/

/-- A verdict does not change the protocol, and takes the challenge out of its slot. -/
theorem verify_snd (v : Verifier E) (statement : Statement E) (first second : Message) :
    (v.verify statement first second).2.protocol = v.protocol ∧
      (v.verify statement first second).2.challenge = none := by
  induction v generalizing statement first second with
  | leaf slot l =>
    rw [verify]
    split
    · exact ⟨rfl, ‹_›⟩
    · exact ⟨rfl, rfl⟩
  | adapted conversion inner ih =>
    rw [verify]
    cases conversion.apply statement with
    | error err =>
      exact ⟨congrArg (Protocol.adapted conversion) (protocol_reset inner), challenge_reset inner⟩
    | ok statement =>
      obtain ⟨hp, hc⟩ := ih statement first second
      exact ⟨congrArg (Protocol.adapted conversion) hp, hc⟩
  | all slot bs ih =>
    rw [verify]
    split
    · exact ⟨rfl, ‹_›⟩
    split
    · exact ⟨rfl, rfl⟩
    · exact ⟨rfl, rfl⟩
    · refine ⟨congrArg (Protocol.all slot.soundness) ?_, rfl⟩
      rw [protocols_eq_map, protocols_eq_map]
      exact verifyEach_keeps fun b hb c s f z => (ih b hb _ s f z).1.trans (protocol_put b c)
  | any slot bs ih =>
    rw [verify]
    split
    · exact ⟨rfl, ‹_›⟩
    split
    · exact ⟨rfl, rfl⟩
    · exact ⟨rfl, rfl⟩
    · simp only [ChallengeOps.addAll_plain]
      refine ⟨congrArg (Protocol.any slot.soundness) ?_, rfl⟩
      rw [protocols_eq_map, protocols_eq_map]
      exact verifyEach_keeps fun b hb c s f z => (ih b hb _ s f z).1.trans (protocol_put b c)

/-- A verifier stays a verifier of its protocol. -/
@[simp] theorem protocol_verify (v : Verifier E) (statement : Statement E)
    (first second : Message) : (v.verify statement first second).2.protocol = v.protocol :=
  (verify_snd v statement first second).1

/-- A challenge serves for one verdict. -/
@[simp] theorem challenge_verify (v : Verifier E) (statement : Statement E)
    (first second : Message) : (v.verify statement first second).2.challenge = none :=
  (verify_snd v statement first second).2

/-- Given the challenge, the verifier accepts the messages. -/
def Accepts (v : Verifier E) (challenge : Bytes) (statement : Statement E)
    (first second : Message) : Prop :=
  ∃ v', v.keepChallenge challenge = .ok v' ∧ (v'.verify statement first second).1 = .ok true

/-- Given the challenge, the verifier rejects the messages, without an error. -/
def Rejects (v : Verifier E) (challenge : Bytes) (statement : Statement E)
    (first second : Message) : Prop :=
  ∃ v', v.keepChallenge challenge = .ok v' ∧ (v'.verify statement first second).1 = .ok false

/-- What a verifier that is given a challenge says is the verdict under it, if the challenge has
the right length. -/
theorem verify_kept_iff {v : Verifier E} {challenge : Bytes} {statement : Statement E}
    {first second : Message} {result : Except ProtocolError Bool} :
    (∃ v', v.keepChallenge challenge = .ok v' ∧ (v'.verify statement first second).1 = result) ↔
      challenge.length = v.protocol.soundness.byteLength ∧
        v.protocol.verdict challenge statement first second = result := by
  rw [soundness_protocol]
  by_cases hlen : challenge.length = v.soundness.byteLength
  · have hverify := verify_fst (challenge_put v challenge) statement first second
    rw [protocol_put] at hverify
    rw [keepChallenge_ok hlen]
    constructor
    · rintro ⟨v', hv', h⟩
      cases hv'
      exact ⟨hlen, hverify ▸ h⟩
    · rintro ⟨-, h⟩
      exact ⟨_, rfl, hverify.trans h⟩
  · rw [keepChallenge_error hlen]
    constructor
    · rintro ⟨v', hv', -⟩
      cases hv'
    · rintro ⟨h, -⟩
      exact absurd h hlen

/-- A verifier accepts in whatever state it is, if the challenge has the right length and the
verdict is positive. -/
theorem accepts_iff {v : Verifier E} {challenge : Bytes} {statement : Statement E}
    {first second : Message} : v.Accepts challenge statement first second ↔
      challenge.length = v.protocol.soundness.byteLength ∧
        v.protocol.verdict challenge statement first second = .ok true :=
  verify_kept_iff

/-- It rejects if the verdict is negative. -/
theorem rejects_iff {v : Verifier E} {challenge : Bytes} {statement : Statement E}
    {first second : Message} : v.Rejects challenge statement first second ↔
      challenge.length = v.protocol.soundness.byteLength ∧
        v.protocol.verdict challenge statement first second = .ok false :=
  verify_kept_iff

end Verifier

/-! ## Compositions and their branches -/

namespace Verifier

theorem messagesOfAll_eq_some {n : Nat} {first second : Message} {fs zs : List Message} :
    messagesOfAll n first second = .ok (some (fs, zs)) ↔
      first = .multiple fs ∧ second = .multiple zs ∧ fs.length = n ∧ zs.length = n := by
  unfold messagesOfAll
  rw [bind_eq_ok]
  simp only [Message.expectMultiple_eq_ok]
  constructor
  · rintro ⟨fs', rfl, h⟩
    obtain ⟨zs', hzs, hlen⟩ := bind_eq_ok.mp h
    rw [Message.expectMultiple_eq_ok.mp hzs]
    split at hlen
    · cases hlen
    · cases hlen
      simp_all
  · rintro ⟨rfl, rfl, hfs, hzs⟩
    exact ⟨fs, rfl, by simp [Message.expectMultiple, hfs, hzs, pure, Except.pure]⟩

theorem messagesOfAny_eq_some {n k : Nat} {first second : Message} {fs zs : List Message}
    {cs : List Bytes} : messagesOfAny n k first second = .ok (some (fs, cs, zs)) ↔
      first = .multiple fs ∧ second = .orResponse cs zs ∧ fs.length = n ∧ cs.length = n ∧
        zs.length = n ∧ ∀ c ∈ cs, c.length = k := by
  unfold messagesOfAny
  rw [bind_eq_ok]
  simp only [Message.expectMultiple_eq_ok]
  constructor
  · rintro ⟨fs', rfl, h⟩
    obtain ⟨⟨cs', zs'⟩, hzs, hlen⟩ := bind_eq_ok.mp h
    rw [Message.expectOrResponse_eq_ok.mp hzs]
    split at hlen
    · cases hlen
    split at hlen
    · cases hlen
    · cases hlen
      simp_all
  · rintro ⟨rfl, rfl, hfs, hcs, hzs, hk⟩
    exact ⟨fs, rfl, by simpa [Message.expectOrResponse, hfs, hcs, hzs, pure, Except.pure] using hk⟩

/-- Two lists of messages are those of the branches if they have the right length. -/
theorem messagesOfAll_multiple (n : Nat) (fs zs : List Message) :
    messagesOfAll n (.multiple fs) (.multiple zs) =
      .ok (if fs.length = n ∧ zs.length = n then some (fs, zs) else none) := by
  by_cases h : fs.length = n ∧ zs.length = n
  · rw [if_pos h]
    exact messagesOfAll_eq_some.mpr ⟨rfl, rfl, h⟩
  · have hcount : (fs.length ≠ n || zs.length ≠ n) = true := by
      rw [Decidable.not_and_iff_or_not] at h
      simpa using h
    simp only [messagesOfAll, Message.expectMultiple, ok_bind, if_pos hcount, if_neg h]
    rfl

/-- So it is for an OR composition, where the challenges need the right length, too. -/
theorem messagesOfAny_multiple (n k : Nat) (fs zs : List Message) (cs : List Bytes) :
    messagesOfAny n k (.multiple fs) (.orResponse cs zs) =
      .ok (if fs.length = n ∧ cs.length = n ∧ zs.length = n ∧ ∀ c ∈ cs, c.length = k then
        some (fs, cs, zs) else none) := by
  by_cases h : fs.length = n ∧ cs.length = n ∧ zs.length = n ∧ ∀ c ∈ cs, c.length = k
  · rw [if_pos h]
    exact messagesOfAny_eq_some.mpr ⟨rfl, rfl, h⟩
  · simp only [messagesOfAny, Message.expectMultiple, Message.expectOrResponse, ok_bind, if_neg h]
    split
    · rfl
    · rename_i hcount
      have hlengths : (cs.any (·.length ≠ k)) = true := by
        simp only [Bool.or_eq_true, decide_eq_true_eq, not_or, Decidable.not_not] at hcount
        simpa [hcount] using h
      rw [if_pos hlengths]
      rfl

end Verifier

namespace Protocol

theorem verdictEach_cons {b : Protocol E} {bs : List (Protocol E)} {c : Bytes} {cs : List Bytes}
    {s : Statement E} {ss : List (Statement E)} {f z : Message} {fs zs : List Message} :
    verdictEach (b :: bs) (c :: cs) (s :: ss) (f :: fs) (z :: zs) = .ok true ↔
      c.length = b.soundness.byteLength ∧ b.verdict c s f z = .ok true ∧
        verdictEach bs cs ss fs zs = .ok true := by
  rw [verdictEach]
  unfold Soundness.requireChallenge
  split
  · rename_i hlen
    simp only [mapError_ok, ok_bind, hlen, true_and]
    rw [bind_eq_ok]
    constructor
    · rintro ⟨accepted, hb, h⟩
      cases hbs : verdictEach bs cs ss fs zs with
      | error err => simp [hbs, Except.map] at h
      | ok others =>
        simp only [hbs, Except.map, Except.ok.injEq, Bool.and_eq_true] at h
        exact ⟨h.1 ▸ hb, by rw [h.2]⟩
    · rintro ⟨hb, hbs⟩
      exact ⟨true, hb, by rw [hbs]; rfl⟩
  · rename_i hlen
    simp [hlen]

/-- The verdict of an AND composition on two lists of messages. -/
theorem verdict_all_messages {t : Soundness} {bs : List (Protocol E)} {ss : List (Statement E)}
    (hss : bs.length = ss.length) (c : Bytes) (fs zs : List Message) :
    (Protocol.all t bs).verdict c (.all ss) (.multiple fs) (.multiple zs) =
      if fs.length = bs.length ∧ zs.length = bs.length then
        verdictEach bs (List.replicate ss.length c) ss fs zs
      else .ok false := by
  simp only [verdict, Statement.expectAll, asProtocolError_ok, ok_bind, checkArity_ok hss,
    Verifier.messagesOfAll_multiple]
  by_cases h : fs.length = bs.length ∧ zs.length = bs.length
  · rw [if_pos h, if_pos h]
  · rw [if_neg h, if_neg h]
    rfl

/-- The verdict of an OR composition on two lists of messages and a list of challenges. -/
theorem verdict_any_messages {t : Soundness} {bs : List (Protocol E)} {ss : List (Statement E)}
    (hss : bs.length = ss.length) (c : Bytes) (fs zs : List Message) (cs : List Bytes) :
    (Protocol.any t bs).verdict c (.any ss) (.multiple fs) (.orResponse cs zs) =
      if fs.length = bs.length ∧ cs.length = bs.length ∧ zs.length = bs.length ∧
          ∀ x ∈ cs, x.length = c.length then
        (verdictEach bs cs ss fs zs).map (Verifier.sharesAddUp c cs && ·)
      else .ok false := by
  simp only [verdict, Statement.expectAny, asProtocolError_ok, ok_bind, checkArity_ok hss,
    Verifier.messagesOfAny_multiple]
  by_cases h : fs.length = bs.length ∧ cs.length = bs.length ∧ zs.length = bs.length ∧
      ∀ x ∈ cs, x.length = c.length
  · rw [if_pos h, if_pos h]
  · rw [if_neg h, if_neg h]
    rfl

/-- An AND composition accepts if there is a pair of messages for each branch and each branch
accepts. -/
theorem verdict_all_eq_true {t : Soundness} {bs : List (Protocol E)} {c : Bytes}
    {s : Statement E} {first second : Message} :
    (Protocol.all t bs).verdict c s first second = .ok true ↔
      ∃ ss fs zs, s = .all ss ∧ first = .multiple fs ∧ second = .multiple zs ∧
        bs.length = ss.length ∧ fs.length = bs.length ∧ zs.length = bs.length ∧
        verdictEach bs (List.replicate ss.length c) ss fs zs = .ok true := by
  unfold verdict
  constructor
  · intro h
    obtain ⟨ss, hs, h₁⟩ := bind_eq_ok.mp h
    obtain ⟨_, harity, h₂⟩ := bind_eq_ok.mp h₁
    obtain ⟨_ | ⟨fs, zs⟩, hm, h₃⟩ := bind_eq_ok.mp h₂
    · cases h₃
    obtain ⟨rfl, rfl, hfs, hzs⟩ := Verifier.messagesOfAll_eq_some.mp hm
    rw [asProtocolError_eq_ok, Statement.expectAll_eq_ok] at hs
    rw [asProtocolError_eq_ok, checkArity_eq_ok] at harity
    exact ⟨ss, fs, zs, hs, rfl, rfl, harity, hfs, hzs, h₃⟩
  · rintro ⟨ss, fs, zs, rfl, rfl, rfl, hss, hfs, hzs, h⟩
    have hm := Verifier.messagesOfAll_eq_some.mpr ⟨rfl, rfl, hfs, hzs⟩
    simp only [Statement.expectAll, asProtocolError_ok, ok_bind, checkArity_ok hss, hm, h]

/-- An OR composition accepts if there is a pair of messages and a share of the challenge for each
branch, the shares add up, and each branch accepts under its share. -/
theorem verdict_any_eq_true {t : Soundness} {bs : List (Protocol E)} {c : Bytes}
    {s : Statement E} {first second : Message} :
    (Protocol.any t bs).verdict c s first second = .ok true ↔
      ∃ ss fs cs zs, s = .any ss ∧ first = .multiple fs ∧ second = .orResponse cs zs ∧
        bs.length = ss.length ∧ fs.length = bs.length ∧ cs.length = bs.length ∧
        zs.length = bs.length ∧ (∀ x ∈ cs, x.length = c.length) ∧
        Verifier.sharesAddUp c cs = true ∧ verdictEach bs cs ss fs zs = .ok true := by
  unfold verdict
  constructor
  · intro h
    obtain ⟨ss, hs, h₁⟩ := bind_eq_ok.mp h
    obtain ⟨_, harity, h₂⟩ := bind_eq_ok.mp h₁
    obtain ⟨_ | ⟨fs, cs, zs⟩, hm, h₃⟩ := bind_eq_ok.mp h₂
    · cases h₃
    obtain ⟨rfl, rfl, hfs, hcs, hzs, hk⟩ := Verifier.messagesOfAny_eq_some.mp hm
    rw [asProtocolError_eq_ok, Statement.expectAny_eq_ok] at hs
    rw [asProtocolError_eq_ok, checkArity_eq_ok] at harity
    cases hbs : verdictEach bs cs ss fs zs with
    | error err => simp [hbs, Except.map] at h₃
    | ok accepted =>
      simp only [hbs, Except.map, Except.ok.injEq, Bool.and_eq_true] at h₃
      exact ⟨ss, fs, cs, zs, hs, rfl, rfl, harity, hfs, hcs, hzs, hk, h₃.1, by rw [hbs, h₃.2]⟩
  · rintro ⟨ss, fs, cs, zs, rfl, rfl, rfl, hss, hfs, hcs, hzs, hk, hsum, h⟩
    have hm := Verifier.messagesOfAny_eq_some.mpr ⟨rfl, rfl, hfs, hcs, hzs, hk⟩
    simp only [Statement.expectAny, asProtocolError_ok, ok_bind, checkArity_ok hss, hm, h,
      hsum, Except.map, Bool.and_self]

end Protocol

end SigmaProofs
