import SigmaProofs.Proofs.Completeness
import SigmaProofs.Proofs.Leaf.ZeroKnowledge

/-!
# The witness of an OR composition is hidden

For an OR composition of basic protocols, the runs with the witness of one branch correspond one to
one to the runs with the witness of another branch, for every challenge: corresponding runs send the
same first and the same second message.

* `coupled_basic`: a prover of a basic protocol and its simulator.
* `sharedRuns`: runs of all branches, of which one gets the challenge that the others leave missing.
  Which one that is makes no difference (`coupled_sharedRuns`).
* `Prover.coupled_converse`: the prover of an OR composition gives such runs.
* `Prover.converse_indistinguishable`: the theorem for two witnesses and two provers.
-/

namespace SigmaProofs

variable {E : Type}

instance : Inhabited Conversation := ⟨⟨default, [], default⟩⟩

/-- The run of a prover with the given challenge. -/
def Prover.converse (p : Prover E) (input : Witnessed E) (challenge : Bytes) :
    Sampling (Except ProtocolError Conversation) := do
  match ← p.commit input with
  | (.error err, _) => return .error err
  | (.ok first, p) => return (p.respond challenge).1.map fun second => ⟨first, challenge, second⟩

namespace Protocol

/-- The protocols that are no compositions. -/
def IsBasic : Protocol E → Prop
  | .leaf .. | .adapted .. => True
  | .all .. | .any .. => False

/-- What a prover commits to and responds to the challenge is the given run. -/
def Gives (challenge : Bytes) (committed : Except ProtocolError Message × Prover E)
    (run : Except ProtocolError Conversation) : Prop :=
  ∃ first second, committed.1 = .ok first ∧ (committed.2.respond challenge).1 = .ok second ∧
    run = .ok ⟨first, challenge, second⟩

theorem coupled_leaf {t : Soundness} {l : Leaf E} {s : Statement E} {w : Witness}
    (hG : ∀ G ∈ l.group?.toList, G.Lawful) (hs : l.Suits t s) (hw : l.Relates s w) {p : Prover E}
    (hp : p.protocol = .leaf t l) {c : Bytes} (hc : c.length = t.byteLength) :
    Sampling.Coupled (Gives c) (p.commit ⟨s, w⟩) (l.simulate t s c) := by
  obtain ⟨_, rfl⟩ := Prover.protocol_eq_leaf hp
  have hreq := requireChallenge_ok hc
  simp only [Prover.commit, Leaf.simulate, hreq]
  refine (Leaf.coupled_simulateMessages hG hs hw (challengeNumber c)).bind ?_
  rintro _ _ ⟨pending, first, rfl, rfl⟩
  refine Sampling.coupled_pure ⟨first, _, rfl, ?_, rfl⟩
  simp only [Prover.respond, hreq]

/-- A prover of a basic protocol with a witness sends what its simulator gives. -/
theorem coupled_basic [DecidableEq E] {b : Protocol E} (hb : b.IsBasic)
    (hG : ∀ G ∈ b.groups, G.Lawful) {s : Statement E} {w : Witness} (hs : b.Suits s)
    (hw : b.Proves s w) {p : Prover E} (hp : p.protocol = b) {c : Bytes}
    (hc : c.length = b.soundness.byteLength) :
    Sampling.Coupled (Gives c) (p.commit ⟨s, w⟩) (b.simulateWith s c) := by
  cases hw with
  | leaf h =>
    cases h with
    | leaf hw =>
    cases hs with
    | leaf hs => exact coupled_leaf hG hs hw hp hc
  | adapted h =>
    obtain ⟨t, l, s', rfl, happly, hs', hw⟩ := hs.apply hG
    obtain ⟨inner, rfl, hinner⟩ := Prover.protocol_eq_adapted hp
    have hleaf := coupled_leaf (fun G hG' => hG G (List.mem_append_right _ hG')) hs' (hw _ h)
      hinner hc
    simp only [Prover.commit, Conversion.applyInput, happly, ok_bind, pure_eq_ok, simulateWith]
    rw [← bind_pure (l.simulate t s' c)]
    refine hleaf.bind ?_
    rintro ⟨_, inner'⟩ _ ⟨first, second, rfl, hrespond, rfl⟩
    exact Sampling.coupled_pure ⟨first, second, rfl, hrespond, rfl⟩
  | all => exact hb.elim
  | any => exact hb.elim

/-! ## Runs of all branches -/

/-- A simulated run of a branch. -/
def simulated (x : Protocol E × Statement E) (challenge : Bytes) : Sampling Conversation :=
  (x.1.simulateWith x.2 challenge).values

/-- Simulated runs of several branches, each with a challenge that is drawn. -/
def freeRuns (t : Soundness) : List (Protocol E × Statement E) → Sampling (List Conversation)
  | [] => return []
  | x :: xs => do
    let challenge ← t.drawChallenge
    let run ← simulated x challenge
    let runs ← freeRuns t xs
    return run :: runs

/-- What the challenges of the runs leave missing to the given one. -/
def missing (challenge : Bytes) (runs : List Conversation) : Bytes :=
  (runs.map (·.challenge)).foldl Bytes.xor challenge

/-- Runs of all branches. The branch `x` gets the challenge that the others leave missing. -/
def sharedRuns (t : Soundness) (challenge : Bytes) (before : List (Protocol E × Statement E))
    (x : Protocol E × Statement E) (after : List (Protocol E × Statement E)) :
    Sampling (List Conversation) := do
  let runs ← freeRuns t before
  let runs' ← freeRuns t after
  let own ← simulated x (missing challenge (runs ++ runs'))
  return runs ++ own :: runs'

@[simp] theorem missing_length (challenge : Bytes) (runs : List Conversation) :
    (missing challenge runs).length = challenge.length :=
  Bytes.foldl_xor_length ..

/-- The challenge of one more run is missing less. -/
theorem missing_xor {k : Nat} {e c : Bytes} {runs : List Conversation} (he : e.length = k)
    (hc : c.length = k) (h : ∀ run ∈ runs, run.challenge.length = k) :
    missing (e.xor c) runs = (missing e runs).xor c := by
  have hshares : ∀ s ∈ runs.map (·.challenge), s.length = k := by
    simpa using h
  have hsum : (Bytes.sum k (runs.map (·.challenge))).length = k := Bytes.sum_length ..
  rw [missing, missing, Bytes.foldl_xor (by rw [Bytes.xor_length, he]) hshares,
    Bytes.foldl_xor he hshares, Bytes.xor_assoc (he.trans hc.symm) (hc.trans hsum.symm),
    Bytes.xor_assoc (he.trans hsum.symm) (hsum.trans hc.symm),
    Bytes.xor_comm (hc.trans hsum.symm)]

/-- A challenge is drawn for one of two branches, and the other gets what is missing: it does not
matter for which. -/
theorem coupled_two (x y : Protocol E × Statement E) {t : Soundness} {e : Bytes}
    (he : e.length = t.byteLength) {runs : List Conversation}
    (hruns : ∀ run ∈ runs, run.challenge.length = t.byteLength) :
    Sampling.Coupled Eq
      (do
        let c ← t.drawChallenge
        let run ← simulated x c
        let own ← simulated y (missing (e.xor c) runs)
        return run :: own :: runs)
      (do
        let c ← t.drawChallenge
        let run ← simulated y c
        let own ← simulated x (missing (e.xor c) runs)
        return own :: run :: runs) := by
  have hmissing : (missing e runs).length = t.byteLength := by rw [missing_length, he]
  refine (Sampling.coupled_xor hmissing).bind ?_
  rintro c _ ⟨rfl, hc⟩
  have hdrawn : ((missing e runs).xor c).length = t.byteLength := by
    rw [Bytes.xor_length, hmissing]
  have hback : (missing e runs).xor ((missing e runs).xor c) = c := by
    rw [Bytes.xor_comm (hmissing.trans hdrawn.symm), Bytes.xor_comm (hmissing.trans hc.symm),
      Bytes.xor_xor_cancel (hc.trans hmissing.symm)]
  rw [missing_xor he hc hruns, missing_xor he hdrawn hruns, hback]
  exact Sampling.Coupled.exchange _ _ fun run own => pure (run :: own :: runs)

/-- Runs of other branches may be made first. -/
theorem coupled_later {β : Type} (t : Soundness) (x : Protocol E × Statement E)
    (xs : List (Protocol E × Statement E))
    (next : Bytes → Conversation → List Conversation → Sampling β) :
    Sampling.Coupled Eq
      (do
        let c ← t.drawChallenge
        let run ← simulated x c
        let runs ← freeRuns t xs
        next c run runs)
      (do
        let runs ← freeRuns t xs
        let c ← t.drawChallenge
        let run ← simulated x c
        next c run runs) := by
  have h := Sampling.Coupled.exchange
    (do
      let c ← t.drawChallenge
      let run ← simulated x c
      return (c, run))
    (freeRuns t xs) fun drawn runs => next drawn.1 drawn.2 runs
  simpa only [bind_assoc, pure_bind] using h

variable [DecidableEq E]

/-- A branch of a composition with the soundness parameter `t` that simulates. -/
def Simulable (t : Soundness) (x : Protocol E × Statement E) : Prop :=
  x.1.soundness = t ∧ Simulates x.1 x.2

variable {t : Soundness} {x y : Protocol E × Statement E} {xs : List (Protocol E × Statement E)}

theorem simulateWith_always (h : Simulable t x) {c : Bytes} (hc : c.length = t.byteLength) :
    (x.1.simulateWith x.2 c).Always fun result => ∃ run, result = .ok run ∧ run.challenge = c := by
  obtain ⟨ht, hsim⟩ := h
  refine (hsim c (by rw [ht, hc])).mono ?_
  rintro _ ⟨run, rfl, hrun, -⟩
  exact ⟨run, rfl, hrun⟩

theorem simulated_always (h : Simulable t x) {c : Bytes} (hc : c.length = t.byteLength) :
    (simulated x c).Always fun run => run.challenge = c :=
  Sampling.always_values (simulateWith_always h hc)

theorem freeRuns_always (h : ∀ x ∈ xs, Simulable t x) : (freeRuns t xs).Always fun runs =>
    runs.length = xs.length ∧ ∀ run ∈ runs, run.challenge.length = t.byteLength := by
  induction xs with
  | nil => exact ⟨rfl, by simp⟩
  | cons x xs ih =>
    obtain ⟨hx, hxs⟩ := List.forall_mem_cons.mp h
    simp only [freeRuns, Soundness.drawChallenge, Sampling.always_bind, Sampling.always_drawBytes]
    intro c hc
    refine (simulated_always hx hc).mono ?_
    rintro run rfl
    refine (ih hxs).mono ?_
    rintro runs ⟨hlen, hruns⟩
    exact ⟨congrArg (· + 1) hlen, List.forall_mem_cons.mpr ⟨hc, hruns⟩⟩

/-- Of the first two branches, either one may get what is missing. -/
theorem coupled_heads {e : Bytes} (he : e.length = t.byteLength) (x y : Protocol E × Statement E)
    (hxs : ∀ z ∈ xs, Simulable t z) :
    Sampling.Coupled Eq
      (do
        let c ← t.drawChallenge
        let run ← simulated x c
        let runs ← freeRuns t xs
        let own ← simulated y (missing (e.xor c) runs)
        return run :: own :: runs)
      (do
        let c ← t.drawChallenge
        let run ← simulated y c
        let runs ← freeRuns t xs
        let own ← simulated x (missing (e.xor c) runs)
        return own :: run :: runs) := by
  have hlate := coupled_later t y xs fun c run runs => do
    let own ← simulated x (missing (e.xor c) runs)
    return own :: run :: runs
  refine (coupled_later t x xs _).trans_eq (Sampling.Coupled.trans_eq ?_ hlate.symm_eq)
  exact .bind_always (freeRuns_always hxs) fun runs hruns => coupled_two x y he hruns.2

omit [DecidableEq E] in
theorem sharedRuns_nil (t : Soundness) (e : Bytes) (x : Protocol E × Statement E)
    (xs : List (Protocol E × Statement E)) :
    sharedRuns t e [] x xs = (do
      let runs ← freeRuns t xs
      let own ← simulated x (missing e runs)
      return own :: runs) := by
  simp [sharedRuns, freeRuns]

omit [DecidableEq E] in
theorem drawChallenge_length (t : Soundness) :
    t.drawChallenge.Always fun c => c.length = t.byteLength :=
  fun _ hc => hc

/-- The run of a first branch, apart from the others. -/
theorem coupled_sharedRuns_cons {e : Bytes} {before : List (Protocol E × Statement E)}
    (hx : Simulable t x) :
    Sampling.Coupled Eq (sharedRuns t e (x :: before) y xs)
      (do
        let c ← t.drawChallenge
        let run ← simulated x c
        let runs ← sharedRuns t (e.xor c) before y xs
        return run :: runs) := by
  simp only [sharedRuns, freeRuns, bind_assoc, pure_bind]
  refine .bind_always (drawChallenge_length t) fun c hc => ?_
  refine .bind_always (simulated_always hx hc) fun run hrun => ?_
  subst hrun
  exact .refl _

/-- The second of two branches gets what is missing, or the first does. -/
theorem coupled_sharedRuns_second {e : Bytes} (he : e.length = t.byteLength)
    (hy : Simulable t y) (hxs : ∀ z ∈ xs, Simulable t z) :
    Sampling.Coupled Eq
      (do
        let c ← t.drawChallenge
        let run ← simulated x c
        let runs ← sharedRuns t (e.xor c) [] y xs
        return run :: runs)
      (sharedRuns t e [] x (y :: xs)) := by
  simp only [sharedRuns_nil, freeRuns, bind_assoc, pure_bind]
  refine (coupled_heads he x y hxs).trans_eq ?_
  refine .bind_always (drawChallenge_length t) fun c hc => ?_
  refine .bind_always (simulated_always hy hc) fun run hrun => ?_
  subst hrun
  exact .refl _

/-- It does not matter which branch gets the challenge that the others leave missing. -/
theorem coupled_sharedRuns {e : Bytes} (he : e.length = t.byteLength)
    {before after rest : List (Protocol E × Statement E)}
    (h : ∀ z ∈ before ++ x :: after, Simulable t z) (hsplit : before ++ x :: after = y :: rest) :
    Sampling.Coupled Eq (sharedRuns t e before x after) (sharedRuns t e [] y rest) := by
  induction before generalizing e y rest with
  | nil =>
    obtain ⟨rfl, rfl⟩ := List.cons.inj hsplit
    exact .refl _
  | cons z before ih =>
    obtain ⟨rfl, hrest⟩ := List.cons.inj hsplit
    obtain ⟨hz, hothers⟩ := List.forall_mem_cons.mp h
    have hne : before ++ x :: after ≠ [] := by simp
    obtain ⟨y, rest', hsplit'⟩ := List.exists_cons_of_ne_nil hne
    have hmem : ∀ z ∈ y :: rest', Simulable t z := hsplit' ▸ hothers
    obtain ⟨hy, hrest'⟩ := List.forall_mem_cons.mp hmem
    obtain rfl : rest = y :: rest' := hrest.symm.trans hsplit'
    refine (coupled_sharedRuns_cons hz).trans_eq ?_
    refine .trans_eq ?_ (coupled_sharedRuns_second he hy hrest')
    refine .bind_right _ fun c => .bind_right _ fun run => .bind_left ?_ _
    exact ih (by rw [Bytes.xor_length, he]) hothers hsplit'

/-! ## The prover of an OR composition -/

/-- A simulated run with a fresh challenge. -/
theorem coupled_simulate (hx : Simulable t x) :
    Sampling.Coupled (fun result run => result = .ok run) (x.1.simulate x.2)
      (t.drawChallenge >>= simulated x) := by
  rw [Protocol.simulate, hx.1]
  refine .bind_always (drawChallenge_length t) fun c hc => ?_
  exact (Sampling.coupled_values (simulateWith_always hx hc)).mono fun _ _ h => h.1

theorem coupled_simulateFrom {ps : List (Prover E)} {ss : List (Statement E)}
    (h : ∀ x ∈ (Prover.protocols ps).zip ss, Simulable t x) :
    Sampling.Coupled (fun result runs => result = .ok (runs.map some))
      (Prover.simulateOthers.simulateFrom ps ss)
      (freeRuns t ((Prover.protocols ps).zip ss)) := by
  induction ps generalizing ss with
  | nil => exact Sampling.coupled_pure rfl
  | cons p ps ih =>
    obtain _ | ⟨s, ss⟩ := ss
    · exact Sampling.coupled_pure rfl
    obtain ⟨hp, hps⟩ := List.forall_mem_cons.mp h
    rw [Prover.protocols, List.zip_cons_cons, freeRuns, ← bind_assoc]
    refine (coupled_simulate hp).bind ?_
    rintro _ run rfl
    refine (ih hps).bind ?_
    rintro _ runs rfl
    exact Sampling.coupled_pure rfl

/-- The other branches of an OR composition simulate with challenges of their own. -/
theorem coupled_simulateOthers {before after : List (Prover E)} {p : Prover E}
    {ss ss' : List (Statement E)} {s : Statement E} (hlen : before.length = ss.length)
    (h : ∀ x ∈ (Prover.protocols before).zip ss, Simulable t x)
    (h' : ∀ x ∈ (Prover.protocols after).zip ss', Simulable t x) :
    Sampling.Coupled
      (fun result runs => result = .ok (runs.1.map some ++ none :: runs.2.map some) ∧
        runs.1.length = before.length)
      (Prover.simulateOthers (before ++ p :: after) (ss ++ s :: ss') before.length)
      (do
        let runs ← freeRuns t ((Prover.protocols before).zip ss)
        let runs' ← freeRuns t ((Prover.protocols after).zip ss')
        return (runs, runs')) := by
  induction before generalizing ss with
  | nil =>
    obtain rfl := List.length_eq_zero_iff.mp hlen.symm
    simp only [List.nil_append, List.length_nil, Prover.simulateOthers, Prover.protocols,
      List.zip_nil_left, freeRuns, pure_bind]
    refine (coupled_simulateFrom h').bind ?_
    rintro _ runs' rfl
    exact Sampling.coupled_pure ⟨rfl, rfl⟩
  | cons b before ih =>
    obtain _ | ⟨s₀, ss⟩ := ss
    · simp at hlen
    obtain ⟨hb, hbefore⟩ := List.forall_mem_cons.mp h
    have hpair : (do
          let runs ← freeRuns t ((Prover.protocols (b :: before)).zip (s₀ :: ss))
          let runs' ← freeRuns t ((Prover.protocols after).zip ss')
          return (runs, runs')) =
        (t.drawChallenge >>= simulated (b.protocol, s₀)) >>= fun run => (do
          let runs ← freeRuns t ((Prover.protocols before).zip ss)
          let runs' ← freeRuns t ((Prover.protocols after).zip ss')
          return (runs, runs')) >>= fun runs => pure (run :: runs.1, runs.2) := by
      simp only [Prover.protocols, List.zip_cons_cons, freeRuns, bind_assoc, pure_bind]
    rw [hpair]
    refine (coupled_simulate hb).bind ?_
    rintro _ run rfl
    refine (ih (by simpa using hlen) hbefore).bind ?_
    rintro _ ⟨runs, runs'⟩ ⟨rfl, hruns⟩
    exact Sampling.coupled_pure ⟨rfl, congrArg (· + 1) hruns⟩

/-- A basic protocol that simulates: its prover with a witness makes the simulated run. -/
theorem coupled_simulated {b : Protocol E} (hb : b.IsBasic) (hG : ∀ G ∈ b.groups, G.Lawful)
    {s : Statement E} {w : Witness} (hs : b.Suits s) (hw : b.Proves s w)
    (hsim : Simulable t (b, s)) {p : Prover E} (hp : p.protocol = b) {c : Bytes}
    (hc : c.length = t.byteLength) :
    Sampling.Coupled (fun committed run => run.challenge = c ∧ committed.1 = .ok run.first ∧
        (committed.2.respond c).1 = .ok run.second)
      (p.commit ⟨s, w⟩) (simulated (b, s) c) := by
  have hbasic := coupled_basic hb hG hs hw hp (by rw [hsim.1, hc])
  refine (hbasic.trans (Sampling.coupled_values (simulateWith_always hsim hc))).mono ?_
  rintro committed run ⟨_, ⟨first, second, hfirst, hsecond, rfl⟩, hrun, -⟩
  obtain rfl := Except.ok.inj hrun
  exact ⟨rfl, hfirst, hsecond⟩

/-- The prover of an OR composition makes runs of all branches. Its branch with the witness gets the
challenge that the others leave missing. -/
theorem coupled_converse {bs bs' : List (Protocol E)} {b : Protocol E}
    {ss ss' : List (Statement E)} {s : Statement E} {w : Witness} (hb : b.IsBasic)
    (hG : ∀ G ∈ b.groups, G.Lawful) (hs : b.Suits s) (hw : b.Proves s w)
    (hss : bs.length = ss.length) (hss' : bs'.length = ss'.length)
    (h : ∀ x ∈ bs.zip ss ++ (b, s) :: bs'.zip ss', Simulable t x) {p : Prover E}
    (hp : p.protocol = .any t (bs ++ b :: bs')) {e : Bytes} (he : e.length = t.byteLength) :
    Sampling.Coupled (fun result runs => result = .ok (gatherAny e runs))
      (p.converse ⟨.any (ss ++ s :: ss'), .any bs.length w⟩ e)
      (sharedRuns t e (bs.zip ss) (b, s) (bs'.zip ss')) := by
  obtain ⟨pending, ps, rfl, hps⟩ := Prover.protocol_eq_any hp
  rw [Prover.protocols_eq_map] at hps
  obtain ⟨before, rest, rfl, rfl, hrest⟩ := List.map_eq_append_iff.mp hps
  obtain ⟨q, after, rfl, rfl, rfl⟩ := List.map_eq_cons_iff.mp hrest
  rw [List.length_map] at hss hss'
  rw [← Prover.protocols_eq_map, ← Prover.protocols_eq_map] at h
  obtain ⟨hbefore, hothers⟩ := List.forall_mem_append.mp h
  obtain ⟨hown, hafter⟩ := List.forall_mem_cons.mp hothers
  have harity : (before ++ q :: after).length = (ss ++ s :: ss').length := by simp [hss, hss']
  have hget : (ss ++ s :: ss')[before.length]? = some s := by
    rw [List.getElem?_append_right (by omega), hss, Nat.sub_self, List.getElem?_cons_zero]
  have hshared : sharedRuns t e ((before.map Prover.protocol).zip ss) (q.protocol, s)
      ((after.map Prover.protocol).zip ss') = (do
        let runs ← freeRuns t ((Prover.protocols before).zip ss)
        let runs' ← freeRuns t ((Prover.protocols after).zip ss')
        return (runs, runs')) >>= fun runs => do
          let own ← simulated (q.protocol, s) (missing e (runs.1 ++ runs.2))
          return runs.1 ++ own :: runs.2 := by
    simp only [sharedRuns, Prover.protocols_eq_map, bind_assoc, pure_bind]
  simp only [Prover.converse, Prover.commit, Statement.expectAny, Witness.expectAny,
    checkArity_ok harity, List.length_map, hget, ok_bind, pure_eq_ok, Prover.commitAt_append,
    bind_assoc]
  rw [hshared]
  refine (coupled_simulateOthers hss hbefore hafter).bind ?_
  rintro _ ⟨runs, runs'⟩ ⟨rfl, hruns⟩
  simp only [bind_assoc]
  refine (coupled_simulated hb hG hs hw hown rfl (by rw [missing_length, he])).bind ?_
  rintro ⟨_, q'⟩ own ⟨hchallenge, rfl, hrespond⟩
  have hlen : runs.length = (Prover.resetAll before).length := by
    rw [hruns, Prover.resetAll_length]
  rw [← hchallenge] at hrespond
  rw [missing, List.map_append] at hchallenge
  simp only [pure_bind]
  refine Sampling.coupled_pure ?_
  rw [← Prover.resetAll_length before, respond_orPending hlen he hchallenge hrespond,
    firstMessages_filled runs runs' own e]
  rfl

/-- The same for any index, where the first branch gets what is missing. -/
theorem coupled_converse_index {bs : List (Protocol E)} {ss : List (Statement E)}
    (hP : (Protocol.any t bs).Constructible) (hbasic : ∀ b ∈ bs, b.IsBasic)
    (hG : ∀ G ∈ (Protocol.any t bs).groups, G.Lawful) (hs : (Protocol.any t bs).Suits (.any ss))
    {j : Nat} {w : Witness} (hw : (Protocol.any t bs).Proves (.any ss) (.any j w)) {p : Prover E}
    (hp : p.protocol = .any t bs) {e : Bytes} (he : e.length = t.byteLength)
    (hzip : bs.zip ss = x :: xs) :
    Sampling.Coupled (fun result runs => result = .ok (gatherAny e runs))
      (p.converse ⟨.any ss, .any j w⟩ e) (sharedRuns t e [] x xs) := by
  obtain - | - | - | ⟨-, huniform⟩ := hP.uniform
  cases hs with
  | any _ hs =>
  cases hw with
  | @any _ _ _ _ b s _ hlen hb hs' hw =>
  have hsim : ∀ z ∈ bs.zip ss, Simulable t z := fun z hz => by
    have hmem := (List.of_mem_zip hz).1
    exact ⟨(huniform _ hmem).soundness_eq,
      simulateWith_accepted (huniform _ hmem) (forall_groups_of_mem hG hmem) (hs z hz)⟩
  obtain ⟨before, after, rfl, rfl⟩ := exists_append_of_getElem? hb
  obtain ⟨ss₁, ss₂, rfl, hss₁⟩ := exists_append_of_getElem? hs'
  have hss₂ : after.length = ss₂.length := by simpa [hss₁] using hlen
  have hmem : b ∈ before ++ b :: after := by simp
  rw [List.zip_append hss₁.symm, List.zip_cons_cons] at hs hsim hzip
  exact (coupled_converse (hbasic b hmem) (forall_groups_of_mem hG hmem)
    (hs (b, s) (by simp)) hw hss₁.symm hss₂ hsim hp he).eq_trans (coupled_sharedRuns he hsim hzip)

end Protocol

/-- Let a statement of an OR composition of basic protocols have witnesses for two of its branches.
For every challenge, what a prover draws in a run with one of them corresponds one to one to what a
prover draws in a run with the other, so that both make the same run. -/
theorem Prover.converse_indistinguishable [DecidableEq E] {t : Soundness} {bs : List (Protocol E)}
    {ss : List (Statement E)} (hP : (Protocol.any t bs).Constructible)
    (hbasic : ∀ b ∈ bs, b.IsBasic) (hG : ∀ G ∈ (Protocol.any t bs).groups, G.Lawful)
    (hs : (Protocol.any t bs).Suits (.any ss)) {j k : Nat} {w w' : Witness}
    (hw : (Protocol.any t bs).Proves (.any ss) (.any j w))
    (hw' : (Protocol.any t bs).Proves (.any ss) (.any k w')) {p p' : Prover E}
    (hp : p.protocol = .any t bs) (hp' : p'.protocol = .any t bs) {e : Bytes}
    (he : e.length = t.byteLength) :
    ∃ f : (p.converse ⟨.any ss, .any j w⟩ e).Draws ≃ (p'.converse ⟨.any ss, .any k w'⟩ e).Draws,
      ∀ d, (∃ run, (p.converse ⟨.any ss, .any j w⟩ e).result d = .ok run ∧
          (p'.converse ⟨.any ss, .any k w'⟩ e).result (f d) = .ok run) ∧
        ((p'.converse ⟨.any ss, .any k w'⟩ e).requests (f d)).Perm
          ((p.converse ⟨.any ss, .any j w⟩ e).requests d) := by
  have hne : bs.zip ss ≠ [] := by
    obtain - | - | - | ⟨hmin, -⟩ := hP.uniform
    cases hs with
    | any hlen _ =>
    refine List.ne_nil_of_length_pos ?_
    rw [List.length_zip, ← hlen, Nat.min_self]
    omega
  obtain ⟨x, xs, hzip⟩ := List.exists_cons_of_ne_nil hne
  have h := Protocol.coupled_converse_index hP hbasic hG hs hw hp he hzip
  have h' := Protocol.coupled_converse_index hP hbasic hG hs hw' hp' he hzip
  have hboth : Sampling.Coupled (fun result result' => ∃ run, result = .ok run ∧ result' = .ok run)
      (p.converse ⟨.any ss, .any j w⟩ e) (p'.converse ⟨.any ss, .any k w'⟩ e) :=
    (h.trans h'.symm).mono fun _ _ hruns => hruns.elim fun _ h => ⟨_, h⟩
  exact hboth

/-! ## Two known exponents -/

namespace Protocol

/-- A proof that one of two exponents is known. -/
def smallChoice : Protocol Nat :=
  let G := SchnorrGroup.small.toPrimeGroup
  .any smallSoundness [.leaf smallSoundness (.dlog G),
    .adapted .elGamalKnowledge (.leaf smallSoundness (.dlog G))]

theorem smallChoice_constructible : smallChoice.Constructible := by
  refine constructible_any (Nat.le_refl 2) ?_
  rintro b (_ | ⟨_, _ | ⟨_, hb⟩⟩)
  · exact ⟨constructible_leaf small_admissible, rfl⟩
  · exact ⟨.adapted _ (constructible_leaf small_admissible), rfl⟩
  · cases hb

theorem smallChoice_isBasic : ∀ b ∈ [Protocol.leaf smallSoundness
      (.dlog SchnorrGroup.small.toPrimeGroup), .adapted .elGamalKnowledge
        (.leaf smallSoundness (.dlog SchnorrGroup.small.toPrimeGroup))], b.IsBasic := by
  simp [IsBasic]

theorem smallChoice_lawful : ∀ G ∈ smallChoice.groups, G.Lawful := by
  intro G hG
  obtain rfl : G = SchnorrGroup.small.toPrimeGroup := by
    simpa [smallChoice, groups, groupsOfAll, Leaf.group?, Conversion.group?] using hG
  exact SchnorrGroup.small_lawful

/-- Both exponents exist, 3 and 5. -/
def smallChoiceStatement : Statement Nat := .any [.dlog 64, .elGamalKnowledge 1024]

theorem smallChoice_suits : smallChoice.Suits smallChoiceStatement := by
  have hmem : ∀ a ∈ [64, 1024], SchnorrGroup.small.isMember a = true := by decide +kernel
  refine .any rfl ?_
  rintro x (_ | ⟨_, _ | ⟨_, hx⟩⟩)
  · exact .leaf (.dlog (hmem 64 (by decide)))
  · exact .elGamalKnowledge (hmem 1024 (by decide))
  · cases hx

theorem smallChoice_proves : smallChoice.Proves smallChoiceStatement (.any 0 (.exponent 3)) ∧
    smallChoice.Proves smallChoiceStatement (.any 1 (.exponent 5)) := by
  have h3 : 64 = SchnorrGroup.small.pow 4 3 := by decide +kernel
  have h5 : 1024 = SchnorrGroup.small.pow 4 5 := by decide +kernel
  exact ⟨.any rfl rfl rfl (.leaf (.leaf (.dlog h3))),
    .any rfl rfl rfl (.adapted (.elGamalKnowledge h5))⟩

end Protocol

theorem Prover.converse_indistinguishable_smallChoice :
    Sampling.Coupled (fun result result' => ∃ run, result = .ok run ∧ result' = .ok run)
      ((ofProtocol Protocol.smallChoice).converse
        ⟨Protocol.smallChoiceStatement, .any 0 (.exponent 3)⟩ [7])
      ((ofProtocol Protocol.smallChoice).converse
        ⟨Protocol.smallChoiceStatement, .any 1 (.exponent 5)⟩ [7]) :=
  converse_indistinguishable Protocol.smallChoice_constructible Protocol.smallChoice_isBasic
    Protocol.smallChoice_lawful Protocol.smallChoice_suits Protocol.smallChoice_proves.1
    Protocol.smallChoice_proves.2 (protocol_ofProtocol _) (protocol_ofProtocol _) rfl

end SigmaProofs
