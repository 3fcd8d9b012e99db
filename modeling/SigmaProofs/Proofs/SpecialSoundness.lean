import SigmaProofs.Proofs.Leaf.Extraction
import SigmaProofs.Proofs.Runs

/-!
# Special soundness of compositions

A protocol is special-sound for a relation if two accepted runs with one first message and different
challenges show that there is a witness. If the protocols that a tree is made of are special-sound,
so is the tree, for the relation that it composes.

* `specialSound_all`: two accepted runs of an AND composition are two accepted runs of each branch,
  with the challenges of the whole.
* `specialSound_any`: two accepted runs of an OR composition have different challenges in some
  branch, as the challenges of the branches add up to different sums.
* `specialSound_composed`: the theorem for all trees.
* `specialSound_group`: the protocols in a group of prime order are special-sound for what they
  prove. In a Schnorr group, the witness is the quotient of the differences of the responses and of
  the challenges (`quotient_witness`).
-/

namespace SigmaProofs

variable {E : Type} [DecidableEq E]

/-- Two verifiers of the protocol that accept one first message under different challenges show that
the statement has a witness. -/
def SpecialSound (R : Statement E → Witness → Prop) (P : Protocol E) : Prop :=
  ∀ v v' : Verifier E, v.protocol = P → v'.protocol = P →
    ∀ (s : Statement E) (first : Message) (e e' : Bytes) (z z' : Message), e ≠ e' →
      v.Accepts e s first z → v'.Accepts e' s first z' → ∃ w, R s w

namespace Protocol

theorem specialSound_iff {R : Statement E → Witness → Prop} {P : Protocol E} :
    SpecialSound R P ↔ ∀ s (run run' : Conversation), run.first = run'.first →
      run.challenge ≠ run'.challenge → P.Accepts s run → P.Accepts s run' → ∃ w, R s w := by
  constructor
  · rintro h s ⟨first, e, z⟩ ⟨_, e', z'⟩ rfl hne hacc hacc'
    have hv := Verifier.protocol_ofProtocol P
    exact h _ _ hv hv s first e e' z z' hne ((verifier_accepts_iff hv).mpr hacc)
      ((verifier_accepts_iff hv).mpr hacc')
  · rintro h v v' hv hv' s first e e' z z' hne hacc hacc'
    exact h s ⟨first, e, z⟩ ⟨first, e', z'⟩ rfl hne ((verifier_accepts_iff hv).mp hacc)
      ((verifier_accepts_iff hv').mp hacc')

/-- A protocol behind a conversion is special-sound, if witnesses of a converted statement give
witnesses of the original one. -/
theorem specialSound_adapted {R R' : Statement E → Witness → Prop} {c : Conversion E}
    {P : Protocol E} (hR : ∀ s s' w, c.apply s = .ok s' → R' s' w → ∃ w', R s w')
    (h : SpecialSound R' P) : SpecialSound R (.adapted c P) := by
  refine specialSound_iff.mpr fun s run run' hfirst hne hacc hacc' => ?_
  obtain ⟨s₁, hs₁, hacc₁⟩ := accepts_adapted_iff.mp hacc
  obtain ⟨s₂, hs₂, hacc₂⟩ := accepts_adapted_iff.mp hacc'
  obtain rfl : s₁ = s₂ := Except.ok.inj (hs₁.symm.trans hs₂)
  obtain ⟨w, hw⟩ := specialSound_iff.mp h s₁ run run' hfirst hne hacc₁ hacc₂
  exact hR s s₁ w hs₁ hw

/-! ## AND compositions -/

/-- Runs of all branches with two challenges give a witness for each branch. -/
theorem exists_witnesses {R : Protocol E → Statement E → Witness → Prop}
    {bs : List (Protocol E)} {ss : List (Statement E)} {runs runs' : List Conversation}
    {c c' : Bytes} (hne : c ≠ c') (hR : ∀ b ∈ bs, SpecialSound (R b) b)
    (h : AcceptsEach bs ss runs) (h' : AcceptsEach bs ss runs')
    (hfirst : runs.map (·.first) = runs'.map (·.first)) (hc : ∀ r ∈ runs, r.challenge = c)
    (hc' : ∀ r ∈ runs', r.challenge = c') :
    ∃ ws : List Witness, bs.length = ws.length ∧
      ∀ x ∈ bs.zip (ss.zip ws), R x.1 x.2.1 x.2.2 := by
  induction h generalizing runs' with
  | nil => exact ⟨[], rfl, by simp⟩
  | @cons b bs s ss run runs hacc _ ih =>
    cases h' with
    | @cons _ _ _ _ run' runs' hacc' haccs' =>
    obtain ⟨hb, hbs⟩ := List.forall_mem_cons.mp hR
    obtain ⟨hrun, hruns⟩ := List.forall_mem_cons.mp hc
    obtain ⟨hrun', hruns'⟩ := List.forall_mem_cons.mp hc'
    obtain ⟨hf, hfs⟩ := List.cons.inj hfirst
    obtain ⟨w, hw⟩ := specialSound_iff.mp hb s run run' hf (by rw [hrun, hrun']; exact hne) hacc
      hacc'
    obtain ⟨ws, hlen, hws⟩ := ih hbs haccs' hfs hruns hruns'
    exact ⟨w :: ws, by rw [List.length_cons, List.length_cons, hlen],
      List.forall_mem_cons.mpr ⟨hw, hws⟩⟩

theorem specialSound_all {R : Protocol E → Statement E → Witness → Prop} {t : Soundness}
    {bs : List (Protocol E)} (h : ∀ b ∈ bs, SpecialSound (ComposedRelation R b) b) :
    SpecialSound (ComposedRelation R (.all t bs)) (.all t bs) := by
  refine specialSound_iff.mpr fun s run run' hfirst hne hacc hacc' => ?_
  obtain ⟨-, ss, runs, rfl, hrun, haccs, hc⟩ := accepts_all_iff.mp hacc
  obtain ⟨-, ss', runs', hss, hrun', haccs', hc'⟩ := accepts_all_iff.mp hacc'
  obtain rfl := Statement.all.inj hss
  rw [hrun, hrun'] at hfirst
  obtain ⟨ws, hlen, hws⟩ :=
    exists_witnesses hne h haccs haccs' (Message.multiple.inj hfirst) hc hc'
  exact ⟨.all ws, .all haccs.length_statements.symm hlen hws⟩

/-! ## OR compositions -/

/-- If the challenges of the branches differ, they differ in some branch, where the runs have one
first message. -/
theorem exists_different {bs : List (Protocol E)} {ss : List (Statement E)}
    {runs runs' : List Conversation} (h : AcceptsEach bs ss runs) (h' : AcceptsEach bs ss runs')
    (hfirst : runs.map (·.first) = runs'.map (·.first))
    (hne : runs.map (·.challenge) ≠ runs'.map (·.challenge)) :
    ∃ (i : Nat) (b : Protocol E) (s : Statement E) (r r' : Conversation), bs[i]? = some b ∧
      ss[i]? = some s ∧ r.first = r'.first ∧ r.challenge ≠ r'.challenge ∧ b.Accepts s r ∧
      b.Accepts s r' := by
  induction h generalizing runs' with
  | nil =>
    cases h'
    exact absurd rfl hne
  | @cons b bs s ss run runs hacc _ ih =>
    cases h' with
    | @cons _ _ _ _ run' runs' hacc' haccs' =>
    obtain ⟨hf, hfs⟩ := List.cons.inj hfirst
    by_cases hrun : run.challenge = run'.challenge
    · have hrest : runs.map (·.challenge) ≠ runs'.map (·.challenge) := by
        intro heq
        exact hne (by rw [List.map_cons, List.map_cons, hrun, heq])
      obtain ⟨i, b', s', r, r', hb, hs, hr⟩ := ih haccs' hfs hrest
      exact ⟨i + 1, b', s', r, r', by simpa using hb, by simpa using hs, hr⟩
    · exact ⟨0, b, s, run, run', rfl, rfl, hf, hrun, hacc, hacc'⟩

theorem specialSound_any {R : Protocol E → Statement E → Witness → Prop} {t : Soundness}
    {bs : List (Protocol E)} (h : ∀ b ∈ bs, SpecialSound (ComposedRelation R b) b) :
    SpecialSound (ComposedRelation R (.any t bs)) (.any t bs) := by
  refine specialSound_iff.mpr fun s run run' hfirst hne hacc hacc' => ?_
  obtain ⟨hlen, ss, runs, rfl, hrun, haccs, -, hsum⟩ := accepts_any_iff.mp hacc
  obtain ⟨hlen', ss', runs', hss, hrun', haccs', -, hsum'⟩ := accepts_any_iff.mp hacc'
  obtain rfl := Statement.any.inj hss
  rw [hrun, hrun'] at hfirst
  have hchallenges : runs.map (·.challenge) ≠ runs'.map (·.challenge) := by
    intro heq
    rw [sharesAddUp_iff, hlen] at hsum
    rw [sharesAddUp_iff, hlen', ← heq, hsum] at hsum'
    exact hne hsum'
  obtain ⟨i, b, s, r, r', hb, hs, hf, hr, hbr, hbr'⟩ :=
    exists_different haccs haccs' (Message.multiple.inj hfirst) hchallenges
  obtain ⟨w, hw⟩ := specialSound_iff.mp (h b (List.mem_of_getElem? hb)) s r r' hf hr hbr hbr'
  exact ⟨.any i w, .any haccs.length_statements.symm hb hs hw⟩

/-! ## All trees -/

/-- If the protocols that a tree is made of are special-sound, each for its relation, then the tree
is special-sound for the composed relation. -/
theorem specialSound_composed {R : Protocol E → Statement E → Witness → Prop} {P : Protocol E}
    (h : ∀ Q ∈ P.basics, SpecialSound (R Q) Q) : SpecialSound (ComposedRelation R P) P := by
  induction P with
  | leaf t l =>
    rintro v v' hv hv' s first e e' z z' hne hacc hacc'
    obtain ⟨w, hw⟩ := h _ (List.mem_singleton_self _) v v' hv hv' s first e e' z z' hne hacc hacc'
    exact ⟨w, .leaf hw⟩
  | adapted c P _ =>
    rintro v v' hv hv' s first e e' z z' hne hacc hacc'
    obtain ⟨w, hw⟩ := h _ (List.mem_singleton_self _) v v' hv hv' s first e e' z z' hne hacc hacc'
    exact ⟨w, .adapted hw⟩
  | all t bs ih =>
    exact specialSound_all fun b hb =>
      ih b hb fun Q hQ => h Q (mem_basicsOfAll.mpr ⟨b, hb, hQ⟩)
  | any t bs ih =>
    exact specialSound_any fun b hb =>
      ih b hb fun Q hQ => h Q (mem_basicsOfAll.mpr ⟨b, hb, hQ⟩)

/-! ## Protocols in a group -/

omit [DecidableEq E] in
/-- Challenges of the right length are different numbers below the order. -/
theorem challengeNumbers {t : Soundness} {order : Nat} (ht : 2 ^ t.bits < order) {e e' : Bytes}
    (he : e.length = t.byteLength) (he' : e'.length = t.byteLength) (hne : e ≠ e') :
    challengeNumber e < order ∧ challengeNumber e' < order ∧
      challengeNumber e ≠ challengeNumber e' :=
  ⟨Nat.lt_trans (challengeNumber_lt he) ht, Nat.lt_trans (challengeNumber_lt he') ht,
    fun heq => hne (challengeNumber_inj he he' heq)⟩

/-- The protocols in a group are special-sound, if the group is large enough. -/
theorem specialSound_group {G : PrimeGroup E} [G.Lawful] {t : Soundness} {l : Leaf E}
    (hl : l.group? = some G) (ht : 2 ^ t.bits < G.order) :
    SpecialSound l.Relates (.leaf t l) := by
  refine specialSound_iff.mpr ?_
  rintro s ⟨first, c, second⟩ ⟨_, c', second'⟩ rfl hne hacc hacc'
  obtain ⟨he, he', hnum⟩ := challengeNumbers ht hacc.length_eq hacc'.length_eq hne
  obtain ⟨⟨w, hw⟩, hrelates⟩ :=
    Leaf.quotient_relates hl he he' hnum hacc.verdict_eq hacc'.verdict_eq
  exact ⟨w, hrelates w hw⟩

/-- So is the protocol for an ElGamal public key. -/
theorem specialSound_elGamalKnowledge {G : PrimeGroup E} [G.Lawful] {t : Soundness}
    (ht : 2 ^ t.bits < G.order) :
    SpecialSound (Relates (.adapted .elGamalKnowledge (.leaf t (.dlog G))))
      (.adapted .elGamalKnowledge (.leaf t (.dlog G))) := by
  refine specialSound_adapted (fun s s' w hs hw => ?_) (specialSound_group rfl ht)
  cases s with
  | elGamalKnowledge h =>
    obtain rfl := Except.ok.inj hs
    cases hw with
    | dlog hw => exact ⟨_, .elGamalKnowledge hw⟩
  | _ => cases hs

theorem specialSound_leaf {t : Soundness} {l : Leaf E} (h : SpecialSound l.Relates (.leaf t l)) :
    SpecialSound (Relates (.leaf t l)) (.leaf t l) := by
  intro v v' hv hv' s first e e' z z' hne hacc hacc'
  obtain ⟨w, hw⟩ := h v v' hv hv' s first e e' z z' hne hacc hacc'
  exact ⟨w, .leaf hw⟩

/-- In a Schnorr group that is large enough, the statement of an accepted run consists of members.
For two accepted challenges, the quotient of the differences of the responses and of the challenges
is a witness. -/
theorem quotient_witness {p q g : Nat} {S : SchnorrGroup}
    (hS : SchnorrGroup.ofParameters p q g = .ok S) (hp : p.Prime) (hq : q.Prime) {t : Soundness}
    (ht : 2 ^ t.bits < q) {l : Leaf Nat} (hl : l.group? = some S.toPrimeGroup) :
    ofLeaf l t = .ok (.leaf t l) ∧
      ∀ v : Verifier Nat, v.protocol = .leaf t l →
        ∀ (s : Statement Nat) (first : Message) (e : Bytes) (z : Message), v.Accepts e s first z →
          l.Suits t s ∧
          ∀ v' : Verifier Nat, v'.protocol = .leaf t l → ∀ (e' : Bytes) (z' : Message), e ≠ e' →
            v'.Accepts e' s first z' →
              (∃ w, QuotientOf q (challengeNumber e) (challengeNumber e') z z' w) ∧
              ∀ w, QuotientOf q (challengeNumber e) (challengeNumber e') z z' w →
                l.Relates s w := by
  obtain ⟨rfl, hvalid⟩ := SchnorrGroup.ofParameters_eq_ok.mp hS
  have := SchnorrGroup.lawful hp hq hvalid
  constructor
  · refine ofLeaf_eq_ok.mpr ⟨rfl, fun G hG => ?_⟩
    obtain rfl : G = (SchnorrGroup.mk p q g).toPrimeGroup := by simpa [hl] using hG
    exact ⟨ht, hvalid⟩
  intro v hv s first e z hacc
  have hrun := (verifier_accepts_iff hv).mp hacc
  refine ⟨Leaf.suits_of_verify hrun.verdict_eq, fun v' hv' e' z' hne hacc' => ?_⟩
  have hrun' := (verifier_accepts_iff hv').mp hacc'
  obtain ⟨he, he', hnum⟩ := challengeNumbers ht hrun.length_eq hrun'.length_eq hne
  exact Leaf.quotient_relates hl he he' hnum hrun.verdict_eq hrun'.verdict_eq

/-! ### A common exponent in the small group -/

/-- The protocol for a common exponent, with challenges of one byte. -/
def smallExtended : Protocol Nat :=
  .leaf smallSoundness (.dhExtended SchnorrGroup.small.toPrimeGroup)

/-- The commitments are powers with exponent zero. -/
theorem smallExtended_accepts {e : UInt8} {z : Nat}
    (h : DhExtended.accepts SchnorrGroup.small.toPrimeGroup (challengeNumber [e]) z [4, 16]
      [64, 18] [.element [0, 1], .element [0, 1]] = .ok true) :
    (Verifier.ofProtocol smallExtended).Accepts [e] (.dhExtended [4, 16] [64, 18])
      (.multiple [.element [0, 1], .element [0, 1]]) (.integer z) :=
  (verifier_accepts_iff (Verifier.protocol_ofProtocol _)).mpr ⟨rfl,
    Leaf.verify_dhExtended.mpr ⟨_, _, _, _, rfl, rfl, rfl, by decide, rfl, rfl, h⟩⟩

/-- The powers 64 and 18 of 4 and 16 have the common exponent 3. -/
theorem quotient_witness_small :
    ∃ w, QuotientOf 1019 0 1 (.integer 0) (.integer 3) w ∧
      (Leaf.dhExtended SchnorrGroup.small.toPrimeGroup).Relates
        (.dhExtended [4, 16] [64, 18]) w := by
  have hS : SchnorrGroup.ofParameters 2039 1019 4 = .ok SchnorrGroup.small :=
    SchnorrGroup.ofParameters_eq_ok.mpr ⟨rfl, SchnorrGroup.small_hasPrimeOrder⟩
  have ht : 2 ^ smallSoundness.bits < 1019 := (small_admissible _ (List.mem_singleton_self _)).1
  have hv := Verifier.protocol_ofProtocol smallExtended
  obtain ⟨-, h⟩ := quotient_witness hS (by norm_num) (by norm_num) ht
    (l := .dhExtended SchnorrGroup.small.toPrimeGroup) rfl
  have hacc := smallExtended_accepts (e := 0) (z := 0) (by decide +kernel)
  have hacc' := smallExtended_accepts (e := 1) (z := 3) (by decide +kernel)
  obtain ⟨⟨w, hw⟩, hrelates⟩ := (h _ hv _ _ _ _ hacc).2 _ hv _ _ (by decide) hacc'
  exact ⟨w, hw, hrelates w hw⟩

/-! ### A small tree -/

theorem smallTree_basics : ∀ Q ∈ smallTree.basics, SpecialSound Q.Relates Q := by
  have := SchnorrGroup.small_lawful
  have ht : 2 ^ 8 < SchnorrGroup.small.toPrimeGroup.order := by
    show 2 ^ 8 < 1019
    norm_num
  rintro Q (_ | ⟨_, _ | ⟨_, _ | ⟨_, hQ⟩⟩⟩)
  · exact specialSound_leaf (specialSound_group rfl ht)
  · exact specialSound_leaf (specialSound_group rfl ht)
  · exact specialSound_elGamalKnowledge ht
  · cases hQ

theorem specialSound_smallTree : (∀ Q ∈ smallTree.basics, SpecialSound Q.Relates Q) ∧
    SpecialSound smallTree.Proves smallTree :=
  ⟨smallTree_basics, specialSound_composed smallTree_basics⟩

end Protocol

end SigmaProofs
