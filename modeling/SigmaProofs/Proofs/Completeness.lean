import SigmaProofs.Proofs.Prover.Branches
import SigmaProofs.Proofs.Simulation

/-!
# Completeness

A prover with a witness convinces every verifier of its protocol, whatever it draws, whatever the
challenge is, and whatever states both of them are in.

* `Prover.Convinces`: a prover that has committed has an accepted response to every challenge.
* `Protocol.Complete`: what a statement and a witness need so that all provers of a protocol commit
  and convince. `complete_leaf`, `complete_adapted`, `complete_all` and `complete_any` follow the
  tree; the other branches of an OR composition only have to simulate.
* `run_accepted`: the theorem for a prover and a verifier.
-/

namespace SigmaProofs

variable {E : Type} [DecidableEq E]

/-- The prover has an accepted response to every challenge. -/
def Prover.Convinces (p : Prover E) (P : Protocol E) (s : Statement E) (first : Message) : Prop :=
  ∀ c : Bytes, c.length = P.soundness.byteLength →
    ∃ second, (p.respond c).1 = .ok second ∧ P.Accepts s ⟨first, c, second⟩

namespace Protocol

/-- Every prover of the protocol commits to the statement and convinces. -/
def Complete (P : Protocol E) (s : Statement E) (w : Witness) : Prop :=
  ∀ p : Prover E, p.protocol = P → (p.commit ⟨s, w⟩).Always fun (result, p') =>
    ∃ first, result = .ok first ∧ p'.Convinces P s first

/-! ## Basic and adapted protocols -/

theorem complete_leaf {t : Soundness} {l : Leaf E} {s : Statement E} {w : Witness}
    (hG : ∀ G ∈ l.group?.toList, G.Lawful) (hs : l.Suits t s) (hw : l.Relates s w) :
    Complete (.leaf t l) s w := by
  intro p hp
  obtain ⟨_, rfl⟩ := Prover.protocol_eq_leaf hp
  simp only [Prover.commit, Sampling.always_bind]
  refine (Leaf.commit_accepted hG hs hw).mono ?_
  rintro _ ⟨pending, first, rfl, hv⟩
  refine ⟨first, rfl, fun c hc => ?_⟩
  have hreq : t.requireChallenge c = .ok () := requireChallenge_ok hc
  simp only [Prover.respond, hreq]
  exact ⟨_, rfl, hc, hv c⟩

theorem complete_adapted {c : Conversion E} {P : Protocol E} {s s' : Statement E} {w : Witness}
    (hs : c.apply s = .ok s') (h : P.Complete s' w) : Complete (.adapted c P) s w := by
  intro p hp
  obtain ⟨inner, rfl, hinner⟩ := Prover.protocol_eq_adapted hp
  simp only [Prover.commit, Conversion.applyInput, hs, ok_bind, pure_eq_ok, Sampling.always_bind]
  refine (h inner hinner).mono ?_
  rintro ⟨_, inner'⟩ ⟨first, rfl, hconv⟩
  refine ⟨first, rfl, fun e he => ?_⟩
  obtain ⟨second, hrespond, hacc⟩ := hconv e he
  exact ⟨second, hrespond, accepts_adapted_iff.mpr ⟨s', hs, hacc⟩⟩

/-! ## AND compositions -/

/-- The branches commit one after another; their responses to one challenge are accepted runs. -/
theorem commitEach_convinces {ps : List (Prover E)} {ss : List (Statement E)} {ws : List Witness}
    {t : Soundness} (ht : ∀ P ∈ Prover.protocols ps, P.soundness = t)
    (hss : ps.length = ss.length) (hws : ps.length = ws.length)
    (h : ∀ x ∈ (Prover.protocols ps).zip (ss.zip ws), Complete x.1 x.2.1 x.2.2) :
    (Prover.commitEach ps ss ws).Always fun (result, ps') => ∃ firsts, result = .ok firsts ∧
      ∀ c : Bytes, c.length = t.byteLength → ∃ runs : List Conversation,
        (Prover.respondEach ps' c).1 = .ok (runs.map (·.second)) ∧ runs.map (·.first) = firsts ∧
        (∀ r ∈ runs, r.challenge = c) ∧ AcceptsEach (Prover.protocols ps) ss runs := by
  induction ps generalizing ss ws with
  | nil =>
    obtain rfl := List.length_eq_zero_iff.mp hss.symm
    exact ⟨[], rfl, fun c _ => ⟨[], rfl, rfl, by simp, .nil⟩⟩
  | cons p ps ih =>
    obtain _ | ⟨s, ss⟩ := ss
    · simp at hss
    obtain _ | ⟨w, ws⟩ := ws
    · simp at hws
    obtain ⟨hp, hps⟩ := List.forall_mem_cons.mp ht
    obtain ⟨hfirst, hothers⟩ := List.forall_mem_cons.mp h
    simp only [Prover.commitEach, Sampling.always_bind]
    refine (hfirst p rfl).mono ?_
    rintro ⟨_, p'⟩ ⟨first, rfl, hconv⟩
    simp only [Sampling.always_bind]
    refine (ih hps (by simpa using hss) (by simpa using hws) hothers).mono ?_
    rintro ⟨_, ps'⟩ ⟨firsts, rfl, hconvs⟩
    refine ⟨first :: firsts, rfl, fun c hc => ?_⟩
    obtain ⟨second, hrespond, hacc⟩ := hconv c (by rw [hp, hc])
    obtain ⟨runs, hresponds, hfirsts, hcs, haccs⟩ := hconvs c hc
    refine ⟨⟨first, c, second⟩ :: runs, ?_, by rw [List.map_cons, hfirsts],
      List.forall_mem_cons.mpr ⟨rfl, hcs⟩, .cons hacc haccs⟩
    rw [Prover.respondEach_cons, hrespond, hresponds]
    rfl

theorem complete_all {t : Soundness} {bs : List (Protocol E)} {ss : List (Statement E)}
    {ws : List Witness} (ht : ∀ b ∈ bs, b.soundness = t) (hss : bs.length = ss.length)
    (hws : bs.length = ws.length) (h : ∀ x ∈ bs.zip (ss.zip ws), Complete x.1 x.2.1 x.2.2) :
    Complete (.all t bs) (.all ss) (.all ws) := by
  intro p hp
  obtain ⟨isPending, ps, rfl, rfl⟩ := Prover.protocol_eq_all hp
  rw [Prover.protocols_length] at hss hws
  simp only [Prover.commit, Statement.expectAll, Witness.expectAll, checkArity_ok hss,
    checkArity_ok hws, ok_bind, pure_eq_ok, Sampling.always_bind]
  refine (commitEach_convinces ht hss hws h).mono ?_
  rintro ⟨_, ps'⟩ ⟨firsts, rfl, hconv⟩
  refine ⟨.multiple firsts, rfl, fun c hc => ?_⟩
  obtain ⟨runs, hrespond, rfl, hcs, hacc⟩ := hconv c hc
  have hreq : t.requireChallenge c = .ok () := requireChallenge_ok hc
  refine ⟨.multiple (runs.map (·.second)), ?_,
    accepts_all_iff.mpr ⟨hc, ss, runs, rfl, rfl, hacc, hcs⟩⟩
  simp only [Prover.respond, hreq, hrespond, Except.map]

/-! ## OR compositions -/

theorem simulateFrom_accepted {ps : List (Prover E)} {ss : List (Statement E)}
    (hss : ps.length = ss.length)
    (h : ∀ x ∈ (Prover.protocols ps).zip ss, Simulates x.1 x.2) :
    (Prover.simulateOthers.simulateFrom ps ss).Always fun result => ∃ runs : List Conversation,
      result = .ok (runs.map some) ∧ AcceptsEach (Prover.protocols ps) ss runs := by
  induction ps generalizing ss with
  | nil =>
    obtain rfl := List.length_eq_zero_iff.mp hss.symm
    exact ⟨[], rfl, .nil⟩
  | cons p ps ih =>
    obtain _ | ⟨s, ss⟩ := ss
    · simp at hss
    obtain ⟨hfirst, hothers⟩ := List.forall_mem_cons.mp h
    simp only [Prover.simulateOthers.simulateFrom, Sampling.always_bind]
    refine hfirst.simulate.mono ?_
    rintro _ ⟨run, rfl, hacc⟩
    simp only [Sampling.always_bind]
    refine (ih (by simpa using hss) hothers).mono ?_
    rintro _ ⟨runs, rfl, haccs⟩
    exact ⟨run :: runs, rfl, .cons hacc haccs⟩

/-- The branches before and after the one with the witness give accepted runs. -/
theorem simulateOthers_accepted {before after : List (Prover E)} {p : Prover E}
    {ss ss' : List (Statement E)} {s : Statement E} (hss : before.length = ss.length)
    (hss' : after.length = ss'.length)
    (h : ∀ x ∈ (Prover.protocols before).zip ss, Simulates x.1 x.2)
    (h' : ∀ x ∈ (Prover.protocols after).zip ss', Simulates x.1 x.2) :
    (Prover.simulateOthers (before ++ p :: after) (ss ++ s :: ss') before.length).Always
      fun result => ∃ runs runs' : List Conversation,
        result = .ok (runs.map some ++ none :: runs'.map some) ∧
        AcceptsEach (Prover.protocols before) ss runs ∧
        AcceptsEach (Prover.protocols after) ss' runs' := by
  induction before generalizing ss with
  | nil =>
    obtain rfl := List.length_eq_zero_iff.mp hss.symm
    simp only [List.nil_append, List.length_nil, Prover.simulateOthers, Sampling.always_bind]
    refine (simulateFrom_accepted hss' h').mono ?_
    rintro _ ⟨runs', rfl, haccs'⟩
    exact ⟨[], runs', rfl, .nil, haccs'⟩
  | cons b before ih =>
    obtain _ | ⟨s₀, ss⟩ := ss
    · simp at hss
    obtain ⟨hfirst, hothers⟩ := List.forall_mem_cons.mp h
    simp only [List.cons_append, List.length_cons, Prover.simulateOthers, Sampling.always_bind]
    refine hfirst.simulate.mono ?_
    rintro _ ⟨run, rfl, hacc⟩
    simp only [Sampling.always_bind]
    refine (ih (by simpa using hss) hothers).mono ?_
    rintro _ ⟨runs, runs', rfl, haccs, haccs'⟩
    exact ⟨run :: runs, runs', rfl, .cons hacc haccs, haccs'⟩

omit [DecidableEq E] in
/-- What is kept of simulated runs around a hole, filled with the challenge and the response of the
branch with the witness, is the second message of all runs. -/
theorem complete_orPending (runs runs' : List Conversation) (own : Conversation)
    (challenge : Bytes) :
    (Prover.orPending runs.length (runs.map some ++ none :: runs'.map some)).complete
        own.challenge own.second =
      (gatherAny challenge (runs ++ own :: runs')).second := by
  simp [OrPending.complete, Prover.orPending, gatherAny, List.filterMap_append,
    List.set_append_right, Function.comp_def]

omit [DecidableEq E] in
theorem ownChallenge_orPending (runs runs' : List Conversation) (challenge : Bytes) :
    (Prover.orPending runs.length (runs.map some ++ none :: runs'.map some)).ownChallenge
        challenge =
      (runs.map (·.challenge) ++ runs'.map (·.challenge)).foldl Bytes.xor challenge := by
  simp [OrPending.ownChallenge, Prover.orPending, List.eraseIdx_append, Function.comp_def]

omit [DecidableEq E] in
theorem firstMessages_filled (runs runs' : List Conversation) (own : Conversation)
    (challenge : Bytes) :
    Message.multiple
        (Prover.firstMessages own.first (runs.map some ++ none :: runs'.map some)) =
      (gatherAny challenge (runs ++ own :: runs')).first := by
  simp [Prover.firstMessages, gatherAny, Function.comp_def]

omit [DecidableEq E] in
/-- The branch with the witness answers the challenge that the other branches leave missing. -/
theorem respond_orPending {t : Soundness} {runs runs' : List Conversation} {own : Conversation}
    {before after : List (Prover E)} {p : Prover E} {c : Bytes}
    (hlen : runs.length = before.length) (hc : c.length = t.byteLength)
    (hown : own.challenge =
      (runs.map (·.challenge) ++ runs'.map (·.challenge)).foldl Bytes.xor c)
    (hrespond : (p.respond own.challenge).1 = .ok own.second) :
    ((Prover.any t
        (some (Prover.orPending before.length (runs.map some ++ none :: runs'.map some)))
        (before ++ p :: after)).respond c).1 =
      .ok (gatherAny c (runs ++ own :: runs')).second := by
  rw [← complete_orPending, ← hlen]
  simp only [Prover.respond_any_pending hc, ownChallenge_orPending, ← hown]
  rw [Prover.orPending, hlen, Prover.respondAt_append, hrespond]
  rfl

/-- After the first message, the branch with the witness makes the run of the composition an
accepted one. -/
theorem convinces_any {t : Soundness} {bs bs' : List (Protocol E)} {b : Protocol E}
    {ss ss' : List (Statement E)} {s : Statement E} {runs runs' : List Conversation}
    {before after : List (Prover E)} {p : Prover E} {first : Message}
    (ht : ∀ b' ∈ bs ++ b :: bs', b'.soundness = t) (hlen : runs.length = before.length)
    (h : AcceptsEach bs ss runs) (h' : AcceptsEach bs' ss' runs') (hp : p.Convinces b s first) :
    (Prover.any t (some (Prover.orPending before.length (runs.map some ++ none :: runs'.map some)))
      (before ++ p :: after)).Convinces (.any t (bs ++ b :: bs')) (.any (ss ++ s :: ss'))
      (.multiple (Prover.firstMessages first (runs.map some ++ none :: runs'.map some))) := by
  intro c hc
  let e := (runs.map (·.challenge) ++ runs'.map (·.challenge)).foldl Bytes.xor c
  have he : e.length = b.soundness.byteLength := by
    rw [ht b (by simp)]
    exact (Bytes.foldl_xor_length _ _).trans hc
  obtain ⟨second, hrespond, hacc⟩ := hp e he
  have hruns := h.append hacc h'
  have hshares := hruns.forall_length ht
  refine ⟨(gatherAny c (runs ++ ⟨first, e, second⟩ :: runs')).second,
    respond_orPending hlen hc rfl hrespond, ?_⟩
  rw [firstMessages_filled runs runs' ⟨first, e, second⟩ c]
  refine accepts_any_iff.mpr ⟨hc, _, _, rfl, rfl, hruns, fun r hr => ?_, ?_⟩
  · exact (hshares r hr).trans hc.symm
  · rw [List.map_append, List.map_cons]
    refine sharesAddUp_middle hc (fun x hx => ?_) (fun x hx => ?_)
    · obtain ⟨r, hr, rfl⟩ := List.mem_map.mp hx
      exact hshares r (List.mem_append_left _ hr)
    · obtain ⟨r, hr, rfl⟩ := List.mem_map.mp hx
      exact hshares r (List.mem_append_right _ (List.mem_cons_of_mem _ hr))

/-- The branch with the witness convinces, and the others simulate. -/
theorem complete_any {t : Soundness} {bs bs' : List (Protocol E)} {b : Protocol E}
    {ss ss' : List (Statement E)} {s : Statement E} {w : Witness}
    (ht : ∀ b' ∈ bs ++ b :: bs', b'.soundness = t) (hss : bs.length = ss.length)
    (hss' : bs'.length = ss'.length) (h : ∀ x ∈ bs.zip ss, Simulates x.1 x.2)
    (h' : ∀ x ∈ bs'.zip ss', Simulates x.1 x.2) (hb : Complete b s w) :
    Complete (.any t (bs ++ b :: bs')) (.any (ss ++ s :: ss')) (.any bs.length w) := by
  intro p hp
  obtain ⟨pending, ps, rfl, hps⟩ := Prover.protocol_eq_any hp
  rw [Prover.protocols_eq_map] at hps
  obtain ⟨before, rest, rfl, rfl, hrest⟩ := List.map_eq_append_iff.mp hps
  obtain ⟨p, after, rfl, rfl, rfl⟩ := List.map_eq_cons_iff.mp hrest
  rw [List.length_map] at hss hss'
  rw [← Prover.protocols_eq_map] at h h'
  have harity : (before ++ p :: after).length = (ss ++ s :: ss').length := by simp [hss, hss']
  have hget : (ss ++ s :: ss')[before.length]? = some s := by
    rw [List.getElem?_append_right (by omega), hss, Nat.sub_self, List.getElem?_cons_zero]
  simp only [Prover.commit, Statement.expectAny, Witness.expectAny, checkArity_ok harity,
    List.length_map, hget, ok_bind, pure_eq_ok, Sampling.always_bind, Prover.commitAt_append]
  refine (simulateOthers_accepted hss hss' h h').mono ?_
  rintro _ ⟨runs, runs', rfl, haccs, haccs'⟩
  simp only [Sampling.always_bind]
  refine (hb p rfl).mono ?_
  rintro ⟨_, p'⟩ ⟨first, rfl, hconv⟩
  have hlen : runs.length = (Prover.resetAll before).length := by
    rw [haccs.length_runs, Prover.protocols_length, Prover.resetAll_length]
  rw [Prover.protocols_eq_map] at haccs haccs'
  refine ⟨_, rfl, ?_⟩
  rw [← Prover.resetAll_length before]
  exact convinces_any ht hlen haccs haccs' hconv

/-! ## All trees -/

/-- A tree is complete for the statements that suit it and their witnesses. -/
theorem complete {t : Soundness} {P : Protocol E} {s : Statement E} {w : Witness}
    (hP : P.Uniform t) (hG : ∀ G ∈ P.groups, G.Lawful) (hs : P.Suits s) (hw : P.Proves s w) :
    P.Complete s w := by
  induction hw with
  | leaf h =>
    cases h with
    | leaf hw =>
    cases hs with
    | leaf hs => exact complete_leaf hG hs hw
  | adapted h =>
    obtain ⟨t', l, s', rfl, happly, hs', hw⟩ := hs.apply hG
    exact complete_adapted happly
      (complete_leaf (fun G hG' => hG G (List.mem_append_right _ hG')) hs' (hw _ h))
  | @all t' bs ss ws hss hws h ih =>
    obtain - | - | ⟨-, hbs⟩ := hP
    cases hs with
    | all hlen hs =>
    refine complete_all (fun b hb => (hbs b hb).soundness_eq) hss hws fun x hx => ?_
    have hmem : x.1 ∈ bs := (List.of_mem_zip hx).1
    exact ih x hx (hbs _ hmem) (forall_groups_of_mem hG hmem)
      (hs _ (mem_zip_of_mem_zip_zip hx))
  | @any t' bs ss i b s w hlen hb hs' h ih =>
    obtain - | - | - | ⟨-, hbs⟩ := hP
    cases hs with
    | any _ hs =>
    obtain ⟨before, after, rfl, rfl⟩ := exists_append_of_getElem? hb
    obtain ⟨ss₁, ss₂, rfl, hss₁⟩ := exists_append_of_getElem? hs'
    have hss₂ : after.length = ss₂.length := by simpa [hss₁] using hlen
    rw [List.zip_append hss₁.symm, List.zip_cons_cons] at hs
    obtain ⟨hbefore, hrest⟩ := List.forall_mem_append.mp hs
    obtain ⟨hsb, hafter⟩ := List.forall_mem_cons.mp hrest
    have hG' : ∀ b' ∈ before ++ b :: after, ∀ G ∈ b'.groups, G.Lawful :=
      fun b' hb' => forall_groups_of_mem hG hb'
    have hsim : ∀ x : Protocol E × Statement E, x.1 ∈ before ++ b :: after → Suits x.1 x.2 →
        Simulates x.1 x.2 :=
      fun x hx hs => simulateWith_accepted (hbs _ hx) (hG' _ hx) hs
    refine complete_any (fun b' hb' => (hbs b' hb').soundness_eq) hss₁.symm hss₂
      (fun x hx => hsim x ?_ (hbefore x hx)) (fun x hx => hsim x ?_ (hafter x hx))
      (ih (hbs b (by simp)) (hG' b (by simp)) hsb)
    · exact List.mem_append_left _ (List.of_mem_zip hx).1
    · exact List.mem_append_right _ (List.mem_cons_of_mem _ (List.of_mem_zip hx).1)

end Protocol

/-- A prover with a witness convinces every verifier of its protocol: for all that it draws, it
commits, it responds to every challenge of the right length, and the verifier accepts. The
protocol is any tree that can be built, and both are in any state. -/
theorem run_accepted {P : Protocol E} (hP : P.Constructible) (hG : ∀ G ∈ P.groups, G.Lawful)
    {s : Statement E} {w : Witness} (hs : P.Suits s) (hw : P.Proves s w) {p : Prover E}
    (hp : p.protocol = P) {v : Verifier E} (hv : v.protocol = P) :
    (p.commit ⟨s, w⟩).Always fun (result, p') => ∃ first, result = .ok first ∧
      ∀ challenge : Bytes, challenge.length = P.soundness.byteLength →
        ∃ second, (p'.respond challenge).1 = .ok second ∧
          v.Accepts challenge s first second := by
  refine (Protocol.complete hP.uniform hG hs hw p hp).mono ?_
  rintro ⟨_, p'⟩ ⟨first, rfl, hconv⟩
  refine ⟨first, rfl, fun challenge hlen => ?_⟩
  obtain ⟨second, hrespond, hacc⟩ := hconv challenge hlen
  exact ⟨second, hrespond, (Protocol.verifier_accepts_iff hv).mpr hacc⟩

theorem run_accepted_smallTree :
    ((Prover.ofProtocol Protocol.smallTree).commit
        ⟨Protocol.smallStatement, Protocol.smallWitness⟩).Always fun (result, p') =>
      ∃ first, result = .ok first ∧ ∀ challenge : Bytes, challenge.length = 1 →
        ∃ second, (p'.respond challenge).1 = .ok second ∧
          (Verifier.ofProtocol Protocol.smallTree).Accepts challenge Protocol.smallStatement
            first second :=
  run_accepted Protocol.smallTree_constructible Protocol.smallTree_lawful
    Protocol.smallTree_suits Protocol.smallTree_proves (Prover.protocol_ofProtocol _)
    (Verifier.protocol_ofProtocol _)

end SigmaProofs
