import SigmaProofs.Proofs.Steps
import SigmaProofs.Protocol

/-!
# Trees of protocols

* `Constructible`: the protocols that the constructors return.
* `Uniform t`: all parts of a tree have the soundness parameter `t`, and no composition is too
  small; so it is for every constructible protocol (`Constructible.uniform`).
* `groups`: the groups in which a tree computes; `basics`: the protocols that it is composed of.
* `ComposedRelation R`: what a composed protocol proves, if `R` is what basic protocols prove: every
  statement of an AND composition, and some statement of an OR composition.
-/

namespace SigmaProofs

variable {E : Type}

/-- The group in which a conversion computes. -/
def Conversion.group? : Conversion E → Option (PrimeGroup E)
  | pedersenValue G | elGamalValue G => some G
  | elGamalKnowledge | djValue => none

theorem checkArity_eq_ok {expected actual : Nat} {u : Unit} :
    checkArity expected actual = .ok u ↔ expected = actual := by
  unfold checkArity
  split <;> simp_all

theorem checkArity_ok {expected actual : Nat} (h : expected = actual) :
    checkArity expected actual = .ok () :=
  checkArity_eq_ok.mpr h

namespace Protocol

/-- Induction over a tree: in a composition, the property may be used of all branches. -/
@[elab_as_elim, induction_eliminator]
theorem induct {motive : Protocol E → Prop} (leaf : ∀ t l, motive (.leaf t l))
    (adapted : ∀ c P, motive P → motive (.adapted c P))
    (all : ∀ t bs, (∀ b ∈ bs, motive b) → motive (.all t bs))
    (any : ∀ t bs, (∀ b ∈ bs, motive b) → motive (.any t bs)) : ∀ P, motive P :=
  @Protocol.rec E motive (fun bs => ∀ b ∈ bs, motive b) leaf adapted all any (by simp)
    fun _ _ hb hbs => List.forall_mem_cons.mpr ⟨hb, hbs⟩

/-! ## What the constructors return -/

/-- The protocols that can be built. -/
inductive Constructible : Protocol E → Prop
  | leaf {l : Leaf E} {t : Soundness} {P : Protocol E} (h : ofLeaf l t = .ok P) : Constructible P
  | adapted (c : Conversion E) {P : Protocol E} (h : Constructible P) : Constructible (.adapted c P)
  | allOf {branches : List (Protocol E)} {P : Protocol E} (hb : ∀ b ∈ branches, Constructible b)
      (h : allOf branches = .ok P) : Constructible P
  | anyOf {branches : List (Protocol E)} {P : Protocol E} (hb : ∀ b ∈ branches, Constructible b)
      (h : anyOf branches = .ok P) : Constructible P

/-- Every part of the tree has the soundness parameter `t`, and compositions have enough
branches. -/
inductive Uniform (t : Soundness) : Protocol E → Prop
  | leaf (l : Leaf E) : Uniform t (.leaf t l)
  | adapted (c : Conversion E) {P : Protocol E} (h : Uniform t P) : Uniform t (.adapted c P)
  | all {branches : List (Protocol E)} (hmin : 1 ≤ branches.length)
      (h : ∀ b ∈ branches, Uniform t b) : Uniform t (.all t branches)
  | any {branches : List (Protocol E)} (hmin : 2 ≤ branches.length)
      (h : ∀ b ∈ branches, Uniform t b) : Uniform t (.any t branches)

theorem Uniform.soundness_eq {t : Soundness} {P : Protocol E} (h : P.Uniform t) :
    P.soundness = t := by
  induction h with
  | leaf | all | any => rfl
  | adapted c h ih => exact ih

/-- A basic protocol is the leaf that was asked for, in a group that is large enough and valid. -/
theorem ofLeaf_eq_ok {l : Leaf E} {t : Soundness} {P : Protocol E} :
    ofLeaf l t = .ok P ↔ P = .leaf t l ∧
      ∀ G ∈ l.group?.toList, 2 ^ t.bits < G.order ∧ G.isValid = true := by
  unfold ofLeaf Leaf.check
  cases l.group? with
  | none => simp [@eq_comm _ P]
  | some G =>
    have horder := t.isBelow_iff G.order
    by_cases hbelow : t.isBelow G.order = true
    · by_cases hvalid : G.isValid = true
      · simp [Soundness.requireOrder, hbelow, hvalid, horder.mp hbelow, @eq_comm _ P]
      · simp [Soundness.requireOrder, hbelow, hvalid]
    · have hlarge : ¬ 2 ^ t.bits < G.order := fun h => hbelow (horder.mpr h)
      simp [Soundness.requireOrder, hbelow, hlarge]

theorem elGamalValue_eq_ok {G : PrimeGroup E} {t : Soundness} {P : Protocol E} :
    elGamalValue G t = .ok P ↔ P = .adapted (.elGamalValue G) (.leaf t (.dhTuple G)) ∧
      2 ^ t.bits < G.order ∧ G.isValid = true := by
  simp [elGamalValue, bind_eq_ok, ofLeaf_eq_ok, Leaf.group?, @eq_comm _ P, and_comm]

theorem pedersenValue_eq_ok {G : PrimeGroup E} {t : Soundness} {P : Protocol E} :
    pedersenValue G t = .ok P ↔ P = .adapted (.pedersenValue G) (.leaf t (.dlog G)) ∧
      2 ^ t.bits < G.order ∧ G.isValid = true := by
  simp [pedersenValue, bind_eq_ok, ofLeaf_eq_ok, Leaf.group?, @eq_comm _ P, and_comm]

/-- A shared parameter is that of every branch, and there are enough branches. -/
theorem sharedSoundness_eq_ok {min : Nat} {ts : List Soundness} {t : Soundness} :
    sharedSoundness min ts = .ok t ↔ min ≤ ts.length ∧ ts ≠ [] ∧ ∀ t' ∈ ts, t' = t := by
  unfold sharedSoundness
  by_cases hmin : ts.length < min
  · simp [hmin, Nat.not_le_of_lt hmin]
  obtain _ | ⟨t₀, ts⟩ := ts
  · simp
  have hfind : ((t₀ :: ts).zipIdx.find? fun x => x.1 ≠ t₀) = none ↔
      ∀ t' ∈ t₀ :: ts, t' = t₀ := by
    rw [List.find?_eq_none]
    constructor
    · intro h t' ht'
      obtain ⟨i, hi⟩ := List.getElem?_of_mem ht'
      simpa using h (t', i) (List.mem_zipIdx_iff_getElem?.mpr hi)
    · intro h x hx
      simpa using h x.1 (List.mem_of_getElem? (List.mem_zipIdx_iff_getElem?.mp hx))
  simp only [if_neg hmin, Nat.le_of_not_lt hmin, ne_eq, List.cons_ne_nil, not_false_eq_true,
    true_and]
  split
  · rename_i other index hsome
    have hne : ¬ ∀ t' ∈ t₀ :: ts, t' = t₀ := fun h => by
      cases hsome.symm.trans (hfind.mpr h)
    exact iff_of_false (by simp) fun h =>
      hne fun t' ht' => (h t' ht').trans (h t₀ List.mem_cons_self).symm
  · rename_i hnone
    rw [Except.ok.injEq]
    constructor
    · rintro rfl
      exact hfind.mp hnone
    · intro h
      exact h t₀ (by simp)

theorem sharedSoundness_branches {α : Type} {f : α → Soundness} {min : Nat} (hpos : 0 < min)
    {branches : List α} {t : Soundness} : sharedSoundness min (branches.map f) = .ok t ↔
      min ≤ branches.length ∧ ∀ b ∈ branches, f b = t := by
  rw [sharedSoundness_eq_ok, List.length_map, List.forall_mem_map, ← List.length_pos_iff,
    List.length_map]
  constructor
  · rintro ⟨hmin, -, ht⟩
    exact ⟨hmin, ht⟩
  · rintro ⟨hmin, ht⟩
    exact ⟨hmin, Nat.lt_of_lt_of_le hpos hmin, ht⟩

theorem allOf_eq_ok {branches : List (Protocol E)} {P : Protocol E} :
    allOf branches = .ok P ↔ ∃ t, P = .all t branches ∧ 1 ≤ branches.length ∧
      ∀ b ∈ branches, b.soundness = t := by
  unfold allOf
  rw [bind_eq_ok]
  refine exists_congr fun t => ?_
  rw [sharedSoundness_branches Nat.one_pos, pure_eq_ok, Except.ok.injEq, and_comm,
    @eq_comm _ P]

theorem anyOf_eq_ok {branches : List (Protocol E)} {P : Protocol E} :
    anyOf branches = .ok P ↔ ∃ t, P = .any t branches ∧ 2 ≤ branches.length ∧
      ∀ b ∈ branches, b.soundness = t := by
  unfold anyOf
  rw [bind_eq_ok]
  refine exists_congr fun t => ?_
  rw [sharedSoundness_branches Nat.two_pos, pure_eq_ok, Except.ok.injEq, and_comm,
    @eq_comm _ P]

/-! ### Trees from their parts -/

theorem constructible_leaf {t : Soundness} {l : Leaf E}
    (h : ∀ G ∈ l.group?.toList, 2 ^ t.bits < G.order ∧ G.isValid = true) :
    Constructible (.leaf t l) :=
  .leaf (ofLeaf_eq_ok.mpr ⟨rfl, h⟩)

theorem constructible_all {t : Soundness} {bs : List (Protocol E)} (hmin : 1 ≤ bs.length)
    (h : ∀ b ∈ bs, b.Constructible ∧ b.soundness = t) : Constructible (.all t bs) :=
  .allOf (fun b hb => (h b hb).1) (allOf_eq_ok.mpr ⟨t, rfl, hmin, fun b hb => (h b hb).2⟩)

theorem constructible_any {t : Soundness} {bs : List (Protocol E)} (hmin : 2 ≤ bs.length)
    (h : ∀ b ∈ bs, b.Constructible ∧ b.soundness = t) : Constructible (.any t bs) :=
  .anyOf (fun b hb => (h b hb).1) (anyOf_eq_ok.mpr ⟨t, rfl, hmin, fun b hb => (h b hb).2⟩)

/-- The constructors give one soundness parameter to all parts of a tree. -/
theorem Constructible.uniform {P : Protocol E} (h : P.Constructible) : P.Uniform P.soundness := by
  induction h with
  | leaf h => rw [(ofLeaf_eq_ok.mp h).1]; exact .leaf _
  | adapted c h ih => exact .adapted c ih
  | allOf hb h ih =>
    obtain ⟨t, rfl, hmin, ht⟩ := allOf_eq_ok.mp h
    exact .all hmin fun b hb => ht b hb ▸ ih b hb
  | anyOf hb h ih =>
    obtain ⟨t, rfl, hmin, ht⟩ := anyOf_eq_ok.mp h
    exact .any hmin fun b hb => ht b hb ▸ ih b hb

/-! ## The parts of a tree -/

mutual

/-- The groups in which the protocol computes. -/
def groups : Protocol E → List (PrimeGroup E)
  | .leaf _ l => l.group?.toList
  | .adapted c inner => c.group?.toList ++ groups inner
  | .all _ branches => groupsOfAll branches
  | .any _ branches => groupsOfAll branches

def groupsOfAll : List (Protocol E) → List (PrimeGroup E)
  | [] => []
  | b :: bs => groups b ++ groupsOfAll bs

end

mutual

/-- The protocols that a tree of compositions is made of. -/
def basics : Protocol E → List (Protocol E)
  | .leaf t l => [.leaf t l]
  | .adapted c inner => [.adapted c inner]
  | .all _ branches => basicsOfAll branches
  | .any _ branches => basicsOfAll branches

def basicsOfAll : List (Protocol E) → List (Protocol E)
  | [] => []
  | b :: bs => basics b ++ basicsOfAll bs

end

theorem mem_groupsOfAll {bs : List (Protocol E)} {G : PrimeGroup E} :
    G ∈ groupsOfAll bs ↔ ∃ b ∈ bs, G ∈ b.groups := by
  induction bs with
  | nil => simp [groupsOfAll]
  | cons b bs ih => simp [groupsOfAll, ih]

/-- What holds of the groups of all branches holds of those of one branch. -/
theorem forall_groups_of_mem {bs : List (Protocol E)} {p : PrimeGroup E → Prop}
    (h : ∀ G ∈ groupsOfAll bs, p G) {b : Protocol E} (hb : b ∈ bs) : ∀ G ∈ b.groups, p G :=
  fun G hG => h G (mem_groupsOfAll.mpr ⟨b, hb, hG⟩)

theorem mem_basicsOfAll {bs : List (Protocol E)} {Q : Protocol E} :
    Q ∈ basicsOfAll bs ↔ ∃ b ∈ bs, Q ∈ b.basics := by
  induction bs with
  | nil => simp [basicsOfAll]
  | cons b bs ih => simp [basicsOfAll, ih]

/-- Elements at one place of three lists are at one place of the first two. -/
theorem mem_zip_of_mem_zip_zip {α β γ : Type} {as : List α} {bs : List β} {cs : List γ}
    {x : α × β × γ} (h : x ∈ as.zip (bs.zip cs)) : (x.1, x.2.1) ∈ as.zip bs := by
  induction as generalizing bs cs with
  | nil => simp at h
  | cons a as ih =>
    obtain _ | ⟨b, bs⟩ := bs
    · simp at h
    obtain _ | ⟨c, cs⟩ := cs
    · simp at h
    simp only [List.zip_cons_cons, List.mem_cons] at h ⊢
    rcases h with rfl | h
    · exact .inl rfl
    · exact .inr (ih h)

/-! ## What a tree proves -/

/-- The relation of a composed protocol between statements and witnesses, from the relation `R` of
the protocols that it is made of. -/
inductive ComposedRelation (R : Protocol E → Statement E → Witness → Prop) :
    Protocol E → Statement E → Witness → Prop
  | leaf {t : Soundness} {l : Leaf E} {s : Statement E} {w : Witness} (h : R (.leaf t l) s w) :
      ComposedRelation R (.leaf t l) s w
  | adapted {c : Conversion E} {P : Protocol E} {s : Statement E} {w : Witness}
      (h : R (.adapted c P) s w) : ComposedRelation R (.adapted c P) s w
  /-- Every branch has a witness for its statement. -/
  | all {t : Soundness} {bs : List (Protocol E)} {ss : List (Statement E)} {ws : List Witness}
      (hs : bs.length = ss.length) (hw : bs.length = ws.length)
      (h : ∀ x ∈ bs.zip (ss.zip ws), ComposedRelation R x.1 x.2.1 x.2.2) :
      ComposedRelation R (.all t bs) (.all ss) (.all ws)
  /-- The branch with the given index has a witness for its statement. -/
  | any {t : Soundness} {bs : List (Protocol E)} {ss : List (Statement E)} {i : Nat}
      {b : Protocol E} {s : Statement E} {w : Witness} (hlen : bs.length = ss.length)
      (hb : bs[i]? = some b) (hs : ss[i]? = some s) (h : ComposedRelation R b s w) :
      ComposedRelation R (.any t bs) (.any ss) (.any i w)

end Protocol

end SigmaProofs
