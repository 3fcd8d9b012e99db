import SigmaProofs.Proofs.Challenge
import SigmaProofs.Proofs.Prover.Branches
import SigmaProofs.Proofs.Tree

/-!
# The two phases of a prover

Between calls a prover is in one of two phases, which are properties of the whole tree.

* `Prover.Idle`: no part keeps anything.
* `Prover.Ready`: every part that is to respond keeps the random values for its response, and no
  other part keeps anything.

Each operation leads from phase to phase, whatever its arguments are:

* `commit_phase`: a first message leads from any state to one of the phases.
* `respond_of_ready`, `respond_of_idle`: a ready prover responds to a challenge of the right length
  and is idle afterwards in any case; an idle prover refuses.
* `reset_idle`: an erasure leads to the idle phase.
-/

namespace SigmaProofs.Prover

variable {E : Type}

/-- Induction over a prover: in a composition, the property may be used of all branches. -/
@[elab_as_elim, induction_eliminator]
theorem induct {motive : Prover E → Prop}
    (leaf : ∀ t l pending, motive (.leaf t l pending))
    (adapted : ∀ c p, motive p → motive (.adapted c p))
    (all : ∀ t isPending bs, (∀ b ∈ bs, motive b) → motive (.all t isPending bs))
    (any : ∀ t pending bs, (∀ b ∈ bs, motive b) → motive (.any t pending bs)) : ∀ p, motive p :=
  @Prover.rec E motive (fun bs => ∀ b ∈ bs, motive b) leaf adapted all any (by simp)
    fun _ _ hb hbs => List.forall_mem_cons.mpr ⟨hb, hbs⟩

/-! ## Nothing is kept -/

/-- No part of the prover keeps anything. -/
def Idle (p : Prover E) : Prop := p = ofProtocol p.protocol

theorem idle_ofProtocol (P : Protocol E) : (ofProtocol P).Idle := by
  rw [Idle, protocol_ofProtocol]

theorem Idle.hasPending_eq {p : Prover E} (h : p.Idle) : p.hasPending = false := by
  rw [h, hasPending_ofProtocol]

/-- Idle branches are those of a fresh prover. -/
theorem ofProtocols_protocols {ps : List (Prover E)} (h : ∀ p ∈ ps, p.Idle) :
    ofProtocols (protocols ps) = ps := by
  induction ps with
  | nil => rfl
  | cons p ps ih =>
    obtain ⟨hp, hps⟩ := List.forall_mem_cons.mp h
    rw [protocols, ofProtocols, ← hp, ih hps]

theorem idle_all {t : Soundness} {bs : List (Prover E)} (h : ∀ b ∈ bs, b.Idle) :
    Idle (.all t false bs) := by
  rw [Idle, protocol, ofProtocol, ofProtocols_protocols h]

theorem idle_any {t : Soundness} {bs : List (Prover E)} (h : ∀ b ∈ bs, b.Idle) :
    Idle (.any t none bs) := by
  rw [Idle, protocol, ofProtocol, ofProtocols_protocols h]

theorem Idle.adapted {c : Conversion E} {p : Prover E} (h : p.Idle) : Idle (.adapted c p) := by
  rw [Idle, protocol, ofProtocol, ← h]

theorem reset_idle (p : Prover E) : p.reset.Idle := by
  induction p with
  | leaf => rfl
  | adapted c p ih =>
    rw [reset]
    exact ih.adapted
  | all t isPending bs ih =>
    rw [reset, resetAll_eq_map]
    exact idle_all (List.forall_mem_map.mpr ih)
  | any t pending bs ih =>
    rw [reset, resetAll_eq_map]
    exact idle_any (List.forall_mem_map.mpr ih)

theorem forall_resetAll_idle (ps : List (Prover E)) : ∀ p ∈ resetAll ps, p.Idle := by
  rw [resetAll_eq_map]
  exact List.forall_mem_map.mpr fun p _ => p.reset_idle

theorem reset_eq (p : Prover E) : p.reset = ofProtocol p.protocol := by
  have h := p.reset_idle
  rwa [Idle, protocol_reset] at h

/-- A fresh prover has nothing to erase. -/
@[simp] theorem reset_ofProtocol (P : Protocol E) : (ofProtocol P).reset = ofProtocol P := by
  rw [reset_eq, protocol_ofProtocol]

theorem resetAll_eq (ps : List (Prover E)) : resetAll ps = ofProtocols (protocols ps) := by
  rw [← protocols_resetAll, ofProtocols_protocols (forall_resetAll_idle ps)]

@[simp] theorem resetAll_ofProtocols (Ps : List (Protocol E)) :
    resetAll (ofProtocols Ps) = ofProtocols Ps := by
  rw [resetAll_eq, protocols_ofProtocols]

/-! ## Everything for one response is kept -/

/-- Every part that is to respond keeps what it needs: all branches of an AND composition, and the
branch with the witness of an OR composition. -/
inductive Ready : Prover E → Prop
  | leaf {t : Soundness} {l : Leaf E} {pending : Pending} : Ready (.leaf t l (some pending))
  | adapted {c : Conversion E} {p : Prover E} (h : Ready p) : Ready (.adapted c p)
  | all {t : Soundness} {bs : List (Prover E)} (h : ∀ b ∈ bs, Ready b) : Ready (.all t true bs)
  | any {t : Soundness} {pending : OrPending} {before after : List (Prover E)} {p : Prover E}
      (hindex : pending.index = before.length) (hbefore : ∀ b ∈ before, b.Idle) (h : Ready p)
      (hafter : ∀ b ∈ after, b.Idle) : Ready (.any t (some pending) (before ++ p :: after))

theorem Ready.hasPending_eq {p : Prover E} (h : p.Ready) : p.hasPending = true := by
  induction h with
  | leaf => rfl
  | adapted h ih => exact ih
  | all h ih => simp [hasPending]
  | any => simp [hasPending]

/-! ## Responses -/

/-- An idle prover refuses to respond, and stays as it is. -/
theorem respond_of_idle {p : Prover E} (h : p.Idle) (c : Bytes) :
    p.respond c = (.error (.illegalState .respondBeforeCommit), p) := by
  rw [h]
  generalize p.protocol = P
  induction P with
  | leaf | all | any => rfl
  | adapted c' P ih => rw [ofProtocol, respond, ih]

/-- What a ready prover responds, and the prover that is left. -/
structure Responds (t : Soundness) (p : Prover E) (c : Bytes)
    (result : Except ProtocolError Message × Prover E) : Prop where
  /-- All random values are gone, whatever the challenge is. -/
  fresh : result.2 = ofProtocol p.protocol
  ok : c.length = t.byteLength → ∃ second, result.1 = .ok second
  wrongLength : c.length ≠ t.byteLength →
    result.1 = .error (.deviation (.challengeLength t.byteLength c.length))

section Responds

variable {t : Soundness} {p : Prover E} {c : Bytes}
  {result : Except ProtocolError Message × Prover E}

theorem responds_ok {second : Message} (hc : c.length = t.byteLength)
    (hfresh : result.2 = ofProtocol p.protocol) (hok : result.1 = .ok second) :
    Responds t p c result where
  fresh := hfresh
  ok _ := ⟨second, hok⟩
  wrongLength hne := absurd hc hne

theorem responds_error (hc : c.length ≠ t.byteLength) (hfresh : result.2 = ofProtocol p.protocol)
    (herr : result.1 = .error (.deviation (.challengeLength t.byteLength c.length))) :
    Responds t p c result where
  fresh := hfresh
  ok hlen := absurd hlen hc
  wrongLength _ := herr

theorem Responds.ok_iff (h : Responds t p c result) :
    (∃ second, result.1 = .ok second) ↔ c.length = t.byteLength := by
  refine ⟨?_, h.ok⟩
  rintro ⟨second, hok⟩
  by_cases hc : c.length = t.byteLength
  · exact hc
  · rw [h.wrongLength hc] at hok
    cases hok

theorem Responds.deviation_iff (h : Responds t p c result) :
    result.1 = .error (.deviation (.challengeLength t.byteLength c.length)) ↔
      c.length ≠ t.byteLength := by
  refine ⟨fun herr hc => ?_, h.wrongLength⟩
  obtain ⟨second, hok⟩ := h.ok hc
  rw [hok] at herr
  cases herr

theorem Responds.not_illegal (h : Responds t p c result) {m : Misuse} :
    result.1 ≠ .error (.illegalState m) := by
  intro herr
  by_cases hc : c.length = t.byteLength
  · obtain ⟨second, hok⟩ := h.ok hc
    rw [hok] at herr
    cases herr
  · rw [h.wrongLength hc] at herr
    cases herr

end Responds

/-- A ready basic prover. -/
theorem respond_leaf {t : Soundness} {l : Leaf E} {pending : Pending} (c : Bytes) :
    Responds t (.leaf t l (some pending)) c (respond (.leaf t l (some pending)) c) := by
  by_cases hc : c.length = t.byteLength
  · have hreq := requireChallenge_ok hc
    apply responds_ok hc
    · simp only [respond, hreq, protocol, ofProtocol]
    · simp only [respond, hreq]
      rfl
  · have hwrong := requireChallenge_error hc
    apply responds_error hc
    · simp only [respond, hwrong, protocol, ofProtocol]
    · simp only [respond, hwrong]

/-- Branches that are ready respond to a challenge of the right length, each of them. -/
theorem respondEach_of_ready {t : Soundness} {bs : List (Prover E)} {c : Bytes}
    (hc : c.length = t.byteLength) (h : ∀ b ∈ bs, Responds t b c (b.respond c)) :
    (∃ seconds, (respondEach bs c).1 = .ok seconds) ∧
      (respondEach bs c).2 = ofProtocols (protocols bs) := by
  induction bs with
  | nil => exact ⟨⟨[], rfl⟩, rfl⟩
  | cons b bs ih =>
    obtain ⟨hb, hbs⟩ := List.forall_mem_cons.mp h
    obtain ⟨second, hsecond⟩ := hb.ok hc
    obtain ⟨⟨seconds, hseconds⟩, hfresh⟩ := ih hbs
    rw [respondEach_cons, hsecond, hseconds, hb.fresh, hfresh]
    exact ⟨⟨second :: seconds, rfl⟩, rfl⟩

/-- A ready AND composition, from its branches. -/
theorem respond_all {t : Soundness} {bs : List (Prover E)} {c : Bytes}
    (h : ∀ b ∈ bs, Responds t b c (b.respond c)) :
    Responds t (.all t true bs) c (respond (.all t true bs) c) := by
  by_cases hc : c.length = t.byteLength
  · obtain ⟨⟨seconds, hseconds⟩, hfresh⟩ := respondEach_of_ready hc h
    apply responds_ok hc
    · simp only [respond, requireChallenge_ok hc, hfresh, protocol, ofProtocol]
    · simp only [respond, requireChallenge_ok hc, hseconds]
      rfl
  · have hwrong := requireChallenge_error hc
    apply responds_error hc
    · simp only [respond, hwrong, resetAll_eq, protocol, ofProtocol]
    · simp only [respond, hwrong]

/-- A ready OR composition, from the branch with the witness. Its challenge has the length of the
given one, as adding up shares does not change the length. -/
theorem respond_any {t : Soundness} {pending : OrPending} {before after : List (Prover E)}
    {p : Prover E} (hindex : pending.index = before.length) (hbefore : ∀ b ∈ before, b.Idle)
    (hafter : ∀ b ∈ after, b.Idle) (h : ∀ c, Responds t p c (p.respond c)) (c : Bytes) :
    Responds t (.any t (some pending) (before ++ p :: after)) c
      (respond (.any t (some pending) (before ++ p :: after)) c) := by
  have hothers : before ++ ofProtocol p.protocol :: after =
      ofProtocols (protocols (before ++ p :: after)) := by
    rw [protocols_append, protocols, ofProtocols_append, ofProtocols, ofProtocols_protocols hbefore,
      ofProtocols_protocols hafter]
  by_cases hc : c.length = t.byteLength
  · have hown : (pending.ownChallenge c).length = t.byteLength :=
      (Bytes.foldl_xor_length _ _).trans hc
    obtain ⟨second, hsecond⟩ := (h (pending.ownChallenge c)).ok hown
    have hfresh := (h (pending.ownChallenge c)).fresh
    apply responds_ok hc
    · simp only [respond_any_pending hc, hindex, respondAt_append, hfresh, hothers, protocol,
        ofProtocol]
    · simp only [respond_any_pending hc, hindex, respondAt_append, hsecond]
      rfl
  · have hwrong := requireChallenge_error hc
    apply responds_error hc
    · simp only [respond, hwrong, hindex, resetAt_append, reset_eq, hothers, protocol, ofProtocol]
    · simp only [respond, hwrong]

/-- A ready prover responds to a challenge of the right length, refuses any other, and forgets its
random values in both cases. -/
theorem respond_of_ready {t : Soundness} {p : Prover E} (hp : p.protocol.Uniform t)
    (h : p.Ready) (c : Bytes) : Responds t p c (p.respond c) := by
  induction h generalizing c with
  | leaf =>
    cases hp
    exact respond_leaf c
  | adapted h ih =>
    obtain - | ⟨-, hp⟩ := hp
    obtain ⟨hfresh, hok, hwrong⟩ := ih hp c
    exact ⟨congrArg _ hfresh, hok, hwrong⟩
  | all h ih =>
    obtain - | - | ⟨-, hbs⟩ := hp
    exact respond_all fun b hb => ih b hb (hbs _ (mem_protocols hb)) c
  | any hindex hbefore h hafter ih =>
    obtain - | - | - | ⟨-, hbs⟩ := hp
    exact respond_any hindex hbefore hafter (ih (hbs _ (mem_protocols (by simp)))) c

/-! ## First messages -/

/-- What a first message leaves of a prover, from whatever state: a prover of the same protocol,
ready if there is a message, idle if there is none. -/
structure Commits (P : Protocol E) (result : Except ProtocolError Message × Prover E) : Prop where
  protocol_eq : result.2.protocol = P
  ready : ∀ first, result.1 = .ok first → result.2.Ready
  idle : ∀ err, result.1 = .error err → result.2.Idle

theorem commits_error {P : Protocol E} {p : Prover E} {err : ProtocolError} (hp : p.protocol = P)
    (h : p.Idle) : Commits P (.error err, p) where
  protocol_eq := hp
  ready first hfirst := by cases hfirst
  idle _ _ := h

theorem commits_ok {P : Protocol E} {p : Prover E} {first : Message} (hp : p.protocol = P)
    (h : p.Ready) : Commits P (.ok first, p) where
  protocol_eq := hp
  ready _ _ := h
  idle err herr := by cases herr

theorem idle_all_resetAll (t : Soundness) (bs : List (Prover E)) :
    Idle (.all t false (resetAll bs)) :=
  idle_all (forall_resetAll_idle bs)

theorem idle_any_resetAll (t : Soundness) (bs : List (Prover E)) :
    Idle (.any t none (resetAll bs)) :=
  idle_any (forall_resetAll_idle bs)

/-- Several branches commit one after another. After an error some of them may be ready. -/
theorem commitEach_phase {ps : List (Prover E)} {ss : List (Statement E)} {ws : List Witness}
    (hss : ps.length = ss.length) (hws : ps.length = ws.length)
    (h : ∀ p ∈ ps, ∀ input, (p.commit input).Always (Commits p.protocol)) :
    (commitEach ps ss ws).Always fun (result, ps') => protocols ps' = protocols ps ∧
      ∀ firsts, result = .ok firsts → ∀ p ∈ ps', p.Ready := by
  induction ps generalizing ss ws with
  | nil => exact ⟨rfl, by simp⟩
  | cons p ps ih =>
    obtain _ | ⟨s, ss⟩ := ss
    · simp at hss
    obtain _ | ⟨w, ws⟩ := ws
    · simp at hws
    obtain ⟨hp, hps⟩ := List.forall_mem_cons.mp h
    simp only [commitEach, Sampling.always_bind]
    refine (hp ⟨s, w⟩).mono ?_
    rintro ⟨_ | first, p'⟩ ⟨hprotocol, hready, -⟩
    · exact ⟨by rw [protocols, protocols, hprotocol], by rintro _ ⟨⟩⟩
    · simp only [Sampling.always_bind]
      refine (ih (by simpa using hss) (by simpa using hws) hps).mono ?_
      rintro ⟨_ | firsts, ps'⟩ ⟨hprotocols, hreadys⟩
      · exact ⟨by rw [protocols, protocols, hprotocol, hprotocols], by rintro _ ⟨⟩⟩
      · refine ⟨by rw [protocols, protocols, hprotocol, hprotocols], fun _ _ => ?_⟩
        exact List.forall_mem_cons.mpr ⟨hready first rfl, hreadys firsts rfl⟩

/-- What a first message of the branch with index `i` leaves of all branches: the others are idle,
and that one is as it is left. -/
structure CommitsAt (i : Nat) (Ps : List (Protocol E))
    (result : Except ProtocolError Message × List (Prover E)) : Prop where
  protocols_eq : protocols result.2 = Ps
  ready : ∀ first, result.1 = .ok first → ∃ before p after, result.2 = before ++ p :: after ∧
    i = before.length ∧ p.Ready ∧ (∀ b ∈ before, b.Idle) ∧ ∀ b ∈ after, b.Idle
  idle : ∀ err, result.1 = .error err → ∀ b ∈ result.2, b.Idle

theorem commitAt_phase {ps : List (Prover E)} {i : Nat} (hi : i < ps.length)
    (h : ∀ p ∈ ps, ∀ input, (p.commit input).Always (Commits p.protocol)) (input : Witnessed E) :
    (commitAt ps i input).Always (CommitsAt i (protocols ps)) := by
  obtain ⟨p, hp⟩ : ∃ p, ps[i]? = some p := ⟨_, List.getElem?_eq_getElem hi⟩
  obtain ⟨before, after, rfl, rfl⟩ := exists_append_of_getElem? hp
  rw [commitAt_append, Sampling.always_bind]
  refine (h p (by simp) input).mono ?_
  rintro ⟨result, p'⟩ ⟨hprotocol, hready, hidle⟩
  have hbefore := forall_resetAll_idle before
  have hafter := forall_resetAll_idle after
  refine ⟨?_, fun first hfirst => ?_, fun err herr => ?_⟩
  · simp only [protocols_append, protocols, protocols_resetAll, hprotocol]
  · exact ⟨resetAll before, p', resetAll after, rfl, (resetAll_length before).symm,
      hready first hfirst, hbefore, hafter⟩
  · exact List.forall_mem_append.mpr ⟨hbefore, List.forall_mem_cons.mpr ⟨hidle err herr, hafter⟩⟩

/-- The branch with the witness is there, as its index was looked up among as many statements as
there are branches. -/
theorem index_lt_of_input {count index : Nat} {input known : Witnessed E}
    {statements : List (Statement E)}
    (h : (do
      let statements ← input.statement.expectAny
      checkArity count statements.length
      let (index, witness) ← input.witness.expectAny
      match statements[index]? with
      | some statement => return (statements, index, (⟨statement, witness⟩ : Witnessed E))
      | none => .error (.invalidInput .witnessIndexOutOfBounds)) =
        Except.ok (statements, index, known)) : index < count := by
  obtain ⟨ss, -, h⟩ := bind_eq_ok.mp h
  obtain ⟨_, hss, h⟩ := bind_eq_ok.mp h
  obtain ⟨⟨i, w⟩, -, h⟩ := bind_eq_ok.mp h
  cases hget : ss[i]? with
  | none => simp [hget] at h
  | some s =>
    obtain ⟨hi, -⟩ := List.getElem?_eq_some_iff.mp hget
    simp only [hget, pure_eq_ok, Except.ok.injEq, Prod.mk.injEq] at h
    obtain ⟨-, rfl, -⟩ := h
    exact checkArity_eq_ok.mp hss ▸ hi

/-- A first message leaves a prover that is ready or idle, whatever is given, drawn and kept from
before. -/
theorem commit_phase (p : Prover E) (input : Witnessed E) :
    (p.commit input).Always (Commits p.protocol) := by
  induction p generalizing input with
  | leaf t l pending =>
    simp only [commit, Sampling.always_bind]
    refine Sampling.always_of_forall ?_
    rintro (_ | ⟨pending, first⟩)
    · exact commits_error rfl rfl
    · exact commits_ok rfl .leaf
  | adapted c p ih =>
    unfold commit
    split
    · exact commits_error (by rw [protocol, protocol_reset, protocol]) p.reset_idle.adapted
    · rw [Sampling.always_bind]
      refine (ih _).mono ?_
      rintro ⟨_, p'⟩ ⟨hprotocol, hready, hidle⟩
      exact ⟨congrArg (Protocol.adapted c) hprotocol, fun first h => (hready first h).adapted,
        fun err h => (hidle err h).adapted⟩
  | all t isPending bs ih =>
    unfold commit
    split
    · exact commits_error (by rw [protocol, protocols_resetAll, protocol]) (idle_all_resetAll t bs)
    · rename_i ss ws hinput
      simp only [bind_eq_ok, pure_eq_ok, Except.ok.injEq, Prod.mk.injEq, checkArity_eq_ok] at hinput
      obtain ⟨_, -, _, hss, _, -, _, hws, rfl, rfl⟩ := hinput
      simp only [Sampling.always_bind]
      refine (commitEach_phase hss hws ih).mono ?_
      rintro ⟨_ | firsts, bs'⟩ ⟨hprotocols, hready⟩
      · -- branches before the failed one may be ready, but all of them are erased
        exact commits_error (by rw [protocol, protocols_resetAll, hprotocols, protocol])
          (idle_all_resetAll t bs')
      · exact commits_ok (by rw [protocol, hprotocols, protocol]) (.all (hready firsts rfl))
  | any t pending bs ih =>
    have hreset : protocol (.any t none (resetAll bs)) = protocol (.any t pending bs) := by
      rw [protocol, protocols_resetAll, protocol]
    unfold commit
    split
    · exact commits_error hreset (idle_any_resetAll t bs)
    · rename_i ss index known hinput
      have hindex := index_lt_of_input hinput
      simp only [Sampling.always_bind]
      refine Sampling.always_of_forall ?_
      rintro (_ | runs)
      · exact commits_error hreset (idle_any_resetAll t bs)
      · simp only [Sampling.always_bind]
        refine (commitAt_phase hindex ih known).mono ?_
        rintro ⟨_ | first, bs'⟩ ⟨hprotocols, hready, hidle⟩
        · exact commits_error (by rw [protocol, hprotocols, protocol]) (idle_any (hidle _ rfl))
        · obtain ⟨before, p, after, rfl, hlen, hp, hbefore, hafter⟩ := hready first rfl
          exact commits_ok (by rw [protocol, hprotocols, protocol]) (.any hlen hbefore hp hafter)

end SigmaProofs.Prover
