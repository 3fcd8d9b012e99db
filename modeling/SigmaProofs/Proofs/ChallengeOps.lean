import SigmaProofs.Proofs.Simulation

/-!
# Operations on challenges that need the right lengths

Bytes are added up pairwise, which needs two strings of one length, and a composition sets
challenges that its branches have to take. Provers, verifiers and simulators have these operations
as a parameter. The question here is when it does not matter what the operations do with anything
but challenges of the right length.

* `ChallengeOps.ExactOn t`: operations that add up challenges of the length that `t` asks for, and
  do whatever they like with other strings and with a branch that refuses its challenge.
* `ChallengeOps.guarded t err`: those of them that fail there.
  `ChallengeOps.addAll_guarded_eq_error_iff` says when adding up shares fails.
* `Sampling.AgreesWith`: a computation asks for the same and has the same result as another one,
  whatever is drawn.
* `Protocol.simulate_agreesWith`: in a tree with one soundness parameter, all exact operations give
  the same simulator.
-/

namespace SigmaProofs

/-! ## Sums of shares -/

/-- On strings of one length, each byte is added to one byte, and none is left over. -/
theorem Bytes.xor_eq_zipWith {acc other : Bytes} (h : acc.length = other.length) :
    acc.xor other = List.zipWith (· ^^^ ·) acc other := by
  induction acc generalizing other with
  | nil => rfl
  | cons a acc ih =>
    obtain _ | ⟨b, other⟩ := other
    · simp at h
    rw [Bytes.xor, List.zipWith_cons_cons, ih (by simpa using h)]

namespace ChallengeOps

variable {t : Soundness} {ops : ChallengeOps} {acc other : Bytes} {shares : List Bytes}

/-- Two challenges of the right length are added up byte by byte. Nothing is said of strings of
other lengths, nor of branches that refuse a challenge. -/
def ExactOn (t : Soundness) (ops : ChallengeOps) : Prop :=
  ∀ acc other : Bytes, acc.length = t.byteLength → other.length = t.byteLength →
    ops.add acc other = .ok (List.zipWith (· ^^^ ·) acc other)

/-- Challenges are added up to a challenge. -/
theorem ExactOn.addAll_eq (h : ops.ExactOn t) (hacc : acc.length = t.byteLength)
    (hshares : ∀ share ∈ shares, share.length = t.byteLength) :
    ops.addAll acc shares = .ok (shares.foldl Bytes.xor acc) := by
  induction shares generalizing acc with
  | nil => rfl
  | cons share shares ih =>
    obtain ⟨hshare, hrest⟩ := List.forall_mem_cons.mp hshares
    have hadd : ops.add acc share = .ok (acc.xor share) := by
      rw [h acc share hacc hshare, Bytes.xor_eq_zipWith (hacc.trans hshare.symm)]
    rw [addAll, List.foldlM_cons, hadd, ok_bind]
    exact ih ((Bytes.xor_length acc share).trans hacc) hrest

/-- Strings that are not both challenges of the right length are not added up, and no branch may
refuse its challenge. -/
def guarded (t : Soundness) (err : ProtocolError) : ChallengeOps where
  add acc other :=
    if acc.length = t.byteLength ∧ other.length = t.byteLength then
      .ok (List.zipWith (· ^^^ ·) acc other)
    else .error err
  refused _ := err

theorem guarded_exactOn (t : Soundness) (err : ProtocolError) : (guarded t err).ExactOn t :=
  fun _ _ hacc hother => if_pos ⟨hacc, hother⟩

/-- With a guard, adding up shares fails as soon as one of the strings is no challenge. -/
theorem addAll_guarded_eq_error_iff {err : ProtocolError} :
    (guarded t err).addAll acc shares = .error err ↔
      shares ≠ [] ∧ (acc.length ≠ t.byteLength ∨ ∃ share ∈ shares, share.length ≠ t.byteLength) := by
  induction shares generalizing acc with
  | nil => simp [addAll]
  | cons share shares ih =>
    by_cases hfit : acc.length = t.byteLength ∧ share.length = t.byteLength
    · obtain ⟨hacc, hshare⟩ := hfit
      have hsum : (List.zipWith (· ^^^ ·) acc share).length = t.byteLength := by
        rw [List.length_zipWith, hacc, hshare, Nat.min_self]
      rw [addAll, List.foldlM_cons, guarded_exactOn t err acc share hacc hshare, ok_bind, ← addAll,
        ih]
      simp only [hsum, hacc, hshare, ne_eq, not_true_eq_false, false_or, List.mem_cons,
        exists_eq_or_imp, reduceCtorEq, not_false_eq_true, true_and, and_iff_right_iff_imp]
      rintro ⟨share', hmem, -⟩
      exact List.ne_nil_of_mem hmem
    · have hadd : (guarded t err).add acc share = .error err := if_neg hfit
      rw [addAll, List.foldlM_cons, hadd, error_bind]
      refine iff_of_true rfl ⟨List.cons_ne_nil share shares, ?_⟩
      by_cases hacc : acc.length = t.byteLength
      · exact .inr ⟨share, List.mem_cons_self, fun hshare => hfit ⟨hacc, hshare⟩⟩
      · exact .inl hacc

end ChallengeOps

/-! ## Computations that agree -/

namespace Sampling

/-- Both computations ask for the same, and whatever answers that fit they get, they have the same
result. -/
inductive AgreesWith {α : Type} : Sampling α → Sampling α → Prop
  | done (a : α) : AgreesWith (.done a) (.done a)
  | ask (r : Request) {next next' : r.Answer → Sampling α}
      (h : ∀ answer, r.Fits answer → AgreesWith (next answer) (next' answer)) :
      AgreesWith (.ask r next) (.ask r next')

namespace AgreesWith

variable {α β : Type} {c c' : Sampling α} {f f' : α → Sampling β}

theorem refl (c : Sampling α) : AgreesWith c c := by
  induction c with
  | done a => exact .done a
  | ask r next ih => exact .ask r fun answer _ => ih answer

/-- Computations agree step by step, and what always holds of a result may be used. -/
theorem bind_always {P : α → Prop} (h : AgreesWith c c') (hP : c'.Always P)
    (hf : ∀ a, P a → AgreesWith (f a) (f' a)) : AgreesWith (c >>= f) (c' >>= f') := by
  induction h with
  | done a => exact hf a hP
  | ask r _ ih => exact .ask r fun answer hfits => ih answer hfits (hP answer hfits)

theorem bind (h : AgreesWith c c') (hf : ∀ a, AgreesWith (f a) (f' a)) :
    AgreesWith (c >>= f) (c' >>= f') :=
  bind_always (P := fun _ => True) h (always_of_forall fun _ => trivial) fun a _ => hf a

end AgreesWith

end Sampling

/-! ## Simulators -/

namespace Protocol

variable {E : Type} {t : Soundness} {ops : ChallengeOps}

theorem simulateEach_agreesWith {bs : List (Protocol E)}
    (h : ∀ b ∈ bs, ∀ s c, Sampling.AgreesWith (b.simulateWith s c ops) (b.simulateWith s c))
    (ss : List (Statement E)) (cs : List Bytes) :
    Sampling.AgreesWith (simulateEach bs ss cs ops) (simulateEach bs ss cs) := by
  induction bs generalizing ss cs with
  | nil => exact .refl _
  | cons b bs ih =>
    obtain _ | ⟨s, ss⟩ := ss
    · exact .refl _
    obtain _ | ⟨c, cs⟩ := cs
    · exact .refl _
    obtain ⟨hb, hbs⟩ := List.forall_mem_cons.mp h
    simp only [simulateEach]
    refine .bind (hb s c) ?_
    rintro (err | run)
    · exact .refl _
    · exact .bind (ih hbs ss cs) fun runs => .refl _

/-- In a tree with one soundness parameter, the challenges of the branches are added up from the one
that was given and those that were drawn, all of which have the same length. -/
theorem simulateWith_agreesWith {P : Protocol E} (hP : P.Uniform t) (hops : ops.ExactOn t)
    (s : Statement E) (c : Bytes) :
    Sampling.AgreesWith (P.simulateWith s c ops) (P.simulateWith s c) := by
  induction P generalizing s c with
  | leaf t' l => exact .refl _
  | adapted conversion P ih =>
    obtain _ | ⟨_, hP⟩ := hP
    simp only [simulateWith]
    cases conversion.apply s with
    | error err => exact .refl _
    | ok s => exact ih hP s c
  | all t' bs ih =>
    obtain _ | _ | ⟨_, hbs⟩ := hP
    simp only [simulateWith]
    cases t.requireChallenge c with
    | error fault => exact .refl _
    | ok =>
    cases s.expectAll with
    | error err => exact .refl _
    | ok ss =>
    simp only [ok_bind]
    cases checkArity bs.length ss.length with
    | error err => exact .refl _
    | ok =>
      refine .bind (simulateEach_agreesWith (fun b hb => ih b hb (hbs b hb)) _ _) fun runs => ?_
      exact .refl _
  | any t' bs ih =>
    obtain _ | _ | _ | ⟨_, hbs⟩ := hP
    simp only [simulateWith]
    by_cases hc : c.length = t.byteLength
    · rw [requireChallenge_ok hc]
      cases s.expectAny with
      | error err => exact .refl _
      | ok ss =>
      simp only [ok_bind]
      cases checkArity bs.length ss.length with
      | error err => exact .refl _
      | ok =>
        -- The challenges are drawn for the composition's own parameter, which is `t`.
        refine .bind_always (.refl _) (drawChallenges_always t ss.length) ?_
        rintro drawn ⟨-, hdrawn⟩
        have hshares : ∀ share ∈ drawn.drop 1, share.length = t.byteLength :=
          fun share hshare => hdrawn share (List.mem_of_mem_drop hshare)
        rw [hops.addAll_eq hc hshares, ChallengeOps.addAll_plain]
        refine .bind (simulateEach_agreesWith (fun b hb => ih b hb (hbs b hb)) _ _) fun runs => ?_
        exact .refl _
    · rw [requireChallenge_error hc]
      exact .refl _

theorem simulate_agreesWith {P : Protocol E} (hP : P.Uniform t) (hops : ops.ExactOn t)
    (s : Statement E) : Sampling.AgreesWith (P.simulate s ops) (P.simulate s) :=
  .bind (.refl _) fun c => simulateWith_agreesWith hP hops s c

end Protocol

end SigmaProofs
