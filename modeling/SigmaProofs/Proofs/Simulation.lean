import SigmaProofs.Proofs.Conversion
import SigmaProofs.Proofs.Leaf.Runs
import SigmaProofs.Proofs.Runs
import SigmaProofs.Prover

/-!
# Simulated runs are accepted

A protocol that is run on a suitable statement without a witness gives a run with the challenge that
it was given, and this run is accepted, whatever is drawn. The statement may be false.

* `simulateEach_accepted`, `simulateAll_accepted`, `simulateAny_accepted`: from the branches to the
  composition. The first branch of an OR composition gets what is missing to the challenge.
* `simulateWith_accepted`: every tree simulates the statements that suit it.
* `simulateWith_wrongLength`: a challenge of another length is blamed on the verifier.
* `simulator_accepted`: the theorem for the simulator of a prover, and a verifier.
-/

namespace SigmaProofs.Protocol

variable {E : Type} [DecidableEq E]

/-- The result of a simulation is an accepted run with the challenge `c`. -/
def SimulatedRun (P : Protocol E) (s : Statement E) (c : Bytes)
    (result : Except ProtocolError Conversation) : Prop :=
  ∃ run, result = .ok run ∧ run.challenge = c ∧ P.Accepts s run

/-- The simulation of the statement gives an accepted run with any challenge. -/
def Simulates (P : Protocol E) (s : Statement E) : Prop :=
  ∀ c : Bytes, c.length = P.soundness.byteLength → (P.simulateWith s c).Always (P.SimulatedRun s c)

omit [DecidableEq E] in
theorem drawChallenges_always (t : Soundness) (n : Nat) :
    (t.drawChallenges n).Always fun cs => cs.length = n ∧ ∀ c ∈ cs, c.length = t.byteLength := by
  induction n with
  | zero => exact ⟨rfl, by simp⟩
  | succ n ih =>
    simp only [Soundness.drawChallenges, Soundness.drawChallenge, Sampling.always_bind,
      Sampling.always_drawBytes, Sampling.always_pure]
    intro c hc
    refine ih.mono fun cs hcs => ?_
    exact ⟨by rw [List.length_cons, hcs.1], List.forall_mem_cons.mpr ⟨hc, hcs.2⟩⟩

/-- A simulation with a random challenge. -/
theorem Simulates.simulate {P : Protocol E} {s : Statement E} (h : P.Simulates s) :
    (P.simulate s).Always fun result => ∃ run, result = .ok run ∧ P.Accepts s run := by
  simp only [Protocol.simulate, Soundness.drawChallenge, Sampling.always_bind,
    Sampling.always_drawBytes]
  intro c hc
  refine (h c hc).mono ?_
  rintro _ ⟨run, rfl, -, hacc⟩
  exact ⟨run, rfl, hacc⟩

/-! ## Compositions -/

/-- Branches that simulate give accepted runs with the challenges that they were given. -/
theorem simulateEach_accepted {bs : List (Protocol E)} {ss : List (Statement E)}
    {cs : List Bytes} {t : Soundness} (ht : ∀ b ∈ bs, b.soundness = t)
    (hss : bs.length = ss.length) (hcs : cs.length = bs.length)
    (hlen : ∀ c ∈ cs, c.length = t.byteLength) (h : ∀ x ∈ bs.zip ss, Simulates x.1 x.2) :
    (simulateEach bs ss cs).Always fun result => ∃ runs, result = .ok runs ∧
      AcceptsEach bs ss runs ∧ runs.map (·.challenge) = cs := by
  induction bs generalizing ss cs with
  | nil =>
    obtain rfl := List.length_eq_zero_iff.mp hss.symm
    obtain rfl := List.length_eq_zero_iff.mp hcs
    exact ⟨[], rfl, .nil, rfl⟩
  | cons b bs ih =>
    obtain _ | ⟨s, ss⟩ := ss
    · simp at hss
    obtain _ | ⟨c, cs⟩ := cs
    · simp at hcs
    obtain ⟨hb, hbs⟩ := List.forall_mem_cons.mp ht
    obtain ⟨hc, hrest⟩ := List.forall_mem_cons.mp hlen
    obtain ⟨hfirst, hothers⟩ := List.forall_mem_cons.mp h
    simp only [simulateEach, Sampling.always_bind]
    refine (hfirst c (by rw [hb, hc])).mono ?_
    rintro _ ⟨run, rfl, hrun, hacc⟩
    simp only [Sampling.always_bind]
    refine (ih hbs (by simpa using hss) (by simpa using hcs) hrest hothers).mono ?_
    rintro _ ⟨runs, rfl, hruns, hcs'⟩
    exact ⟨run :: runs, rfl, .cons hacc hruns, by rw [List.map_cons, hrun, hcs']⟩

theorem simulateAll_accepted {t : Soundness} {bs : List (Protocol E)} {ss : List (Statement E)}
    (ht : ∀ b ∈ bs, b.soundness = t) (hss : bs.length = ss.length)
    (h : ∀ x ∈ bs.zip ss, Simulates x.1 x.2) : Simulates (.all t bs) (.all ss) := by
  intro c hc
  have hreq : t.requireChallenge c = .ok () := requireChallenge_ok hc
  have hlen : ∀ x ∈ List.replicate ss.length c, x.length = t.byteLength := by
    intro x hx
    rw [List.eq_of_mem_replicate hx]
    exact hc
  have hcs : (List.replicate ss.length c).length = bs.length := by
    rw [List.length_replicate, hss]
  simp only [simulateWith, hreq, Statement.expectAll, checkArity_ok hss, ok_bind, pure_eq_ok,
    Sampling.always_bind]
  refine (simulateEach_accepted ht hss hcs hlen h).mono ?_
  rintro _ ⟨runs, rfl, hruns, hcs'⟩
  refine ⟨gatherAll c runs, rfl, rfl, accepts_all_iff.mpr ⟨hc, ss, runs, rfl, rfl, hruns, ?_⟩⟩
  intro r hr
  have hmem : r.challenge ∈ List.replicate ss.length c := hcs' ▸ List.mem_map_of_mem hr
  exact List.eq_of_mem_replicate hmem

theorem simulateAny_accepted {t : Soundness} {bs : List (Protocol E)} {ss : List (Statement E)}
    (hne : bs ≠ []) (ht : ∀ b ∈ bs, b.soundness = t) (hss : bs.length = ss.length)
    (h : ∀ x ∈ bs.zip ss, Simulates x.1 x.2) : Simulates (.any t bs) (.any ss) := by
  intro c hc
  have hreq : t.requireChallenge c = .ok () := requireChallenge_ok hc
  simp only [simulateWith, hreq, Statement.expectAny, checkArity_ok hss, ok_bind, pure_eq_ok,
    ChallengeOps.addAll_plain, Sampling.always_bind]
  refine (drawChallenges_always t ss.length).mono ?_
  rintro drawn ⟨hdrawn, hlen⟩
  have hcs : (shareChallenge c drawn).length = bs.length := by
    rw [shareChallenge_length, hdrawn, hss]
  have hdrawn' : drawn ≠ [] := by
    rintro rfl
    rw [List.length_nil, ← hss] at hdrawn
    exact hne (List.length_eq_zero_iff.mp hdrawn.symm)
  have hshares := forall_mem_shareChallenge hc hlen
  refine (simulateEach_accepted ht hss hcs hshares h).mono ?_
  rintro _ ⟨runs, rfl, hruns, hcs'⟩
  refine ⟨gatherAny c runs, rfl, rfl,
    accepts_any_iff.mpr ⟨hc, ss, runs, rfl, rfl, hruns, fun r hr => ?_, ?_⟩⟩
  · exact (hruns.forall_length ht r hr).trans hc.symm
  · rw [hcs']
    exact sharesAddUp_shareChallenge hc hlen hdrawn'

/-! ## All trees -/

/-- A basic protocol simulates the statements that suit it. -/
theorem simulateLeaf_accepted {t : Soundness} {l : Leaf E} {s : Statement E}
    (hs : l.Suits t s) (hG : ∀ G ∈ l.group?.toList, G.Lawful) : Simulates (.leaf t l) s := by
  intro c hc
  refine (l.simulate_accepted hG hs hc).mono ?_
  rintro _ ⟨run, rfl, rfl, hv⟩
  exact ⟨run, rfl, rfl, hc, hv⟩

/-- Every tree simulates the statements that suit it. -/
theorem simulateWith_accepted {t : Soundness} {P : Protocol E} {s : Statement E}
    (hP : P.Uniform t) (hG : ∀ G ∈ P.groups, G.Lawful) (hs : P.Suits s) : P.Simulates s := by
  induction P generalizing s with
  | leaf t' l =>
    cases hs with
    | leaf hs => exact simulateLeaf_accepted hs hG
  | adapted c P ih =>
    obtain ⟨t', l, s', rfl, happly, hs', -⟩ := hs.apply hG
    intro e he
    simp only [simulateWith, happly]
    have hleaf := simulateLeaf_accepted hs' fun G hG' => hG G (List.mem_append_right _ hG')
    refine (hleaf e he).mono ?_
    rintro _ ⟨run, rfl, hrun, hacc⟩
    exact ⟨run, rfl, hrun, accepts_adapted_iff.mpr ⟨_, happly, hacc⟩⟩
  | all t' bs ih =>
    obtain - | - | ⟨-, hbs⟩ := hP
    cases hs with
    | all hlen h =>
    refine simulateAll_accepted (fun b hb => (hbs b hb).soundness_eq) hlen fun x hx => ?_
    have hmem := (List.of_mem_zip hx).1
    exact ih _ hmem (hbs _ hmem) (forall_groups_of_mem hG hmem) (h x hx)
  | any t' bs ih =>
    obtain - | - | - | ⟨hmin, hbs⟩ := hP
    cases hs with
    | any hlen h =>
    have hne : bs ≠ [] := List.ne_nil_of_length_pos (by omega)
    refine simulateAny_accepted hne (fun b hb => (hbs b hb).soundness_eq) hlen fun x hx => ?_
    have hmem := (List.of_mem_zip hx).1
    exact ih _ hmem (hbs _ hmem) (forall_groups_of_mem hG hmem) (h x hx)

omit [DecidableEq E] in
theorem simulateLeaf_wrongLength {t : Soundness} {c : Bytes} (hc : c.length ≠ t.byteLength)
    (l : Leaf E) (s : Statement E) : l.simulate t s c =
      pure (.error (.deviation (.challengeLength t.byteLength c.length))) := by
  simp only [Leaf.simulate, requireChallenge_error hc]

omit [DecidableEq E] in
/-- A challenge of a wrong length is refused before anything is drawn. A conversion comes first, but
it does not fail for a statement that suits. -/
theorem simulateWith_wrongLength {P : Protocol E} {s : Statement E}
    (hG : ∀ G ∈ P.groups, G.Lawful) (hs : P.Suits s) {c : Bytes}
    (hc : c.length ≠ P.soundness.byteLength) : P.simulateWith s c =
      pure (.error (.deviation (.challengeLength P.soundness.byteLength c.length))) := by
  cases P with
  | leaf t l => exact simulateLeaf_wrongLength hc l s
  | adapted conversion P =>
    obtain ⟨t, l, s', rfl, happly, -, -⟩ := hs.apply hG
    simp only [simulateWith, happly]
    exact simulateLeaf_wrongLength hc l s'
  | all t bs =>
    have hreq : t.requireChallenge c = _ := requireChallenge_error hc
    simp only [simulateWith, hreq]
    rfl
  | any t bs =>
    have hreq : t.requireChallenge c = _ := requireChallenge_error hc
    simp only [simulateWith, hreq]
    rfl

/-- The simulator of a prover gives a run with any challenge of the right length, and every verifier
of the protocol accepts its messages under that challenge. The protocol is any tree that can be
built, the statement may be false, and prover and verifier are in any state. -/
theorem simulator_accepted {P : Protocol E} (hP : P.Constructible)
    (hG : ∀ G ∈ P.groups, G.Lawful) {s : Statement E} (hs : P.Suits s) {p : Prover E}
    (hp : p.protocol = P) {v : Verifier E} (hv : v.protocol = P) (e : Bytes) :
    (p.protocol.simulateWith s e).Always fun result =>
      (e.length = P.soundness.byteLength → ∃ run, result = .ok run ∧ run.challenge = e ∧
        v.Accepts e s run.first run.second) ∧
      (e.length ≠ P.soundness.byteLength → result =
        .error (.deviation (.challengeLength P.soundness.byteLength e.length))) := by
  rw [hp]
  by_cases he : e.length = P.soundness.byteLength
  · refine (simulateWith_accepted hP.uniform hG hs e he).mono ?_
    rintro _ ⟨run, rfl, rfl, hacc⟩
    exact ⟨fun _ => ⟨run, rfl, rfl, (verifier_accepts_iff hv).mpr hacc⟩, fun hne => absurd he hne⟩
  · rw [simulateWith_wrongLength hG hs he]
    exact ⟨fun h => absurd h he, fun _ => rfl⟩

theorem simulator_accepted_smallTree :
    ((Prover.ofProtocol smallTree).protocol.simulateWith smallStatement [200]).Always
      fun result =>
        (1 = 1 → ∃ run, result = .ok run ∧ run.challenge = [200] ∧
          (Verifier.ofProtocol smallTree).Accepts [200] smallStatement run.first run.second) ∧
        (1 ≠ 1 → result = .error (.deviation (.challengeLength 1 1))) :=
  simulator_accepted smallTree_constructible smallTree_lawful smallTree_suits
    (Prover.protocol_ofProtocol _) (Verifier.protocol_ofProtocol _) [200]

end SigmaProofs.Protocol
