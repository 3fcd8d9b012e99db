import SigmaProofs.Proofs.Leaf.Runs

/-!
# Witnesses from two accepted runs in a group

`QuotientOf q e e' second second' w`: the numbers of the witness `w` are the quotients of the
differences of two responses and of the challenges `e` and `e'`, modulo `q`. For two accepted runs
with one first message there is such a witness, and each of them is one for the statement
(`Leaf.quotient_relates`).
-/

namespace SigmaProofs

/-- The numbers of a witness are the quotients of the differences of two responses and of two
challenges. -/
inductive QuotientOf (q e e' : Nat) : Message → Message → Witness → Prop
  | exponent {z z' w : Nat} (hw : IsQuotient q e e' z z' w) :
      QuotientOf q e e' (.integer z) (.integer z') (.exponent w)
  | opening {u u' v v' x r : Nat} (hx : IsQuotient q e e' u u' x)
      (hr : IsQuotient q e e' v v' r) :
      QuotientOf q e e' (.opening u v) (.opening u' v') (.opening x r)

/-- Different challenges below the order have quotients, and these are witnesses. -/
theorem Leaf.quotient_relates {E : Type} [DecidableEq E] {G : PrimeGroup E} [G.Lawful] {l : Leaf E}
    {t : Soundness} {s : Statement E} {c c' : Bytes} {first second second' : Message}
    (hl : l.group? = some G) (he : challengeNumber c < G.order) (he' : challengeNumber c' < G.order)
    (hne : challengeNumber c ≠ challengeNumber c')
    (h : l.verify t c s first second = .ok true) (h' : l.verify t c' s first second' = .ok true) :
    (∃ w, QuotientOf G.order (challengeNumber c) (challengeNumber c') second second' w) ∧
      ∀ w, QuotientOf G.order (challengeNumber c) (challengeNumber c') second second' w →
        l.Relates s w := by
  have hq := isQuotient_extractedExponent PrimeGroup.Lawful.order_prime he he' hne
  -- in each case, both runs are about one statement and have one first message
  cases l with
  | dlog G' =>
    obtain rfl := Option.some.inj hl
    obtain ⟨b, a, z, rfl, rfl, rfl, hacc⟩ := verify_dlog.mp h
    obtain ⟨b', a', z', hs, ha, rfl, hacc'⟩ := verify_dlog.mp h'
    obtain rfl := Statement.dlog.inj hs
    obtain rfl := Message.element.inj ha
    refine ⟨⟨_, .exponent (hq z z')⟩, fun w hw => ?_⟩
    cases hw with
    | exponent hw => exact .dlog (Dlog.eq_pow_of_isQuotient he he' hne hw hacc hacc')
  | dhTuple G' =>
    obtain rfl := Option.some.inj hl
    obtain ⟨b, u, v, a₁, a₂, z, rfl, rfl, rfl, hacc⟩ := verify_dhTuple.mp h
    obtain ⟨b', u', v', a₁', a₂', z', hs, ha, rfl, hacc'⟩ := verify_dhTuple.mp h'
    obtain ⟨rfl, rfl, rfl⟩ := Statement.dhTuple.inj hs
    obtain ⟨rfl, rfl⟩ := Message.elementPair.inj ha
    refine ⟨⟨_, .exponent (hq z z')⟩, fun w hw => ?_⟩
    cases hw with
    | exponent hw =>
      obtain ⟨hu, hv⟩ := DhTuple.eq_pow_of_isQuotient he he' hne hw hacc hacc'
      exact .dhTuple hu hv
  | dhExtended G' =>
    obtain rfl := Option.some.inj hl
    obtain ⟨bs, ps, as, z, rfl, rfl, rfl, -, hlen, hcount, hacc⟩ := verify_dhExtended.mp h
    obtain ⟨bs', ps', as', z', hs, has, rfl, -, -, -, hacc'⟩ := verify_dhExtended.mp h'
    obtain ⟨rfl, rfl⟩ := Statement.dhExtended.inj hs
    obtain rfl := Message.multiple.inj has
    refine ⟨⟨_, .exponent (hq z z')⟩, fun w hw => ?_⟩
    cases hw with
    | exponent hw =>
      exact .dhExtended (DhExtended.eq_map_of_isQuotient hlen hcount he he' hne hw hacc hacc')
  | opening G' =>
    obtain rfl := Option.some.inj hl
    obtain ⟨b, p, a, u, v, rfl, rfl, rfl, hacc⟩ := verify_opening.mp h
    obtain ⟨b', p', a', u', v', hs, ha, rfl, hacc'⟩ := verify_opening.mp h'
    obtain ⟨rfl, rfl⟩ := Statement.pedersenKnowledge.inj hs
    obtain rfl := Message.element.inj ha
    refine ⟨⟨_, .opening (hq u u') (hq v v')⟩, fun w hw => ?_⟩
    cases hw with
    | opening hx hr => exact .opening (Opening.eq_commit_of_isQuotient he he' hne hx hr hacc hacc')
  | encryptedZero => cases hl
  | product => cases hl

end SigmaProofs
