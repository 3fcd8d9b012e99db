import SigmaProofs.Leaf

/-!
# Computations step by step

* `Except`: a computation that may fail goes on after a step that succeeded (`ok_bind`), ends with
  the fault of a step that failed (`error_bind`), and succeeds if all its steps do (`bind_eq_ok`).
* `Statement.expectDlog_eq_ok` and so on: a statement or message is taken apart if it has the
  expected form.
* `Sampling.Always` passes through the steps of a computation: a bind holds of all runs if what
  follows holds of all results (`always_bind`), and a draw is a quantifier over the answers that
  fit (`always_drawBytes`).
-/

namespace SigmaProofs

variable {ε α β : Type}

/-! ## Computations that may fail -/

@[simp] theorem pure_eq_ok (a : α) : (pure a : Except ε α) = .ok a := rfl

@[simp] theorem ok_bind (a : α) (f : α → Except ε β) : (Except.ok a >>= f) = f a := rfl

@[simp] theorem error_bind (e : ε) (f : α → Except ε β) :
    (Except.error e >>= f) = Except.error e := rfl

@[simp] theorem mapError_ok {ε' : Type} (f : ε → ε') (a : α) :
    (Except.ok a).mapError f = .ok a := rfl

@[simp] theorem mapError_error {ε' : Type} (f : ε → ε') (e : ε) :
    (Except.error e : Except ε α).mapError f = .error (f e) := rfl

theorem bind_eq_ok {x : Except ε α} {f : α → Except ε β} {b : β} :
    (x >>= f) = .ok b ↔ ∃ a, x = .ok a ∧ f a = .ok b := by
  cases x <;> simp

@[simp] theorem asProtocolError_ok (a : α) : asProtocolError (.ok a) = .ok a := rfl

@[simp] theorem asProtocolError_error (e : ConfigError) :
    asProtocolError (.error e : Except ConfigError α) = .error (.config e) := rfl

theorem asProtocolError_eq_ok {x : Except ConfigError α} {a : α} :
    asProtocolError x = .ok a ↔ x = .ok a := by
  cases x <;> simp

theorem requireChallenge_eq_ok {t : Soundness} {challenge : Bytes} {u : Unit} :
    t.requireChallenge challenge = .ok u ↔ challenge.length = t.byteLength := by
  unfold Soundness.requireChallenge
  split <;> simp_all

theorem requireChallenge_ok {t : Soundness} {challenge : Bytes}
    (h : challenge.length = t.byteLength) : t.requireChallenge challenge = .ok () :=
  requireChallenge_eq_ok.mpr h

theorem requireChallenge_error {t : Soundness} {challenge : Bytes}
    (h : challenge.length ≠ t.byteLength) : t.requireChallenge challenge =
      .error (.challengeLength t.byteLength challenge.length) := by
  rw [Soundness.requireChallenge, if_neg h]

/-! ## Statements and messages taken apart -/

section TakenApart

variable {E : Type} {s : Statement E} {m : Message}

theorem Statement.expectDlog_eq_ok {h : E} : s.expectDlog = .ok h ↔ s = .dlog h := by
  cases s <;> simp [expectDlog]

theorem Statement.expectDhTuple_eq_ok {h u v : E} :
    s.expectDhTuple = .ok (h, u, v) ↔ s = .dhTuple h u v := by
  cases s <;> simp [expectDhTuple]

theorem Statement.expectDhExtended_eq_ok {bases powers : List E} :
    s.expectDhExtended = .ok (bases, powers) ↔
      s = .dhExtended bases powers ∧ bases ≠ [] ∧ bases.length = powers.length := by
  cases s with
  | dhExtended bases' powers' =>
    rw [expectDhExtended]
    split
    next h =>
      constructor
      · intro h'
        cases h'
      · rintro ⟨h', hne, hlen⟩
        obtain ⟨rfl, rfl⟩ := Statement.dhExtended.inj h'
        simp [hne, hlen] at h
    next h =>
      simp only [Bool.or_eq_true, List.isEmpty_iff, bne_iff_ne, not_or, ne_eq,
        Decidable.not_not] at h
      constructor
      · intro h'
        cases h'
        exact ⟨rfl, h⟩
      · rintro ⟨h', -⟩
        obtain ⟨rfl, rfl⟩ := Statement.dhExtended.inj h'
        rfl
  | _ => simp [expectDhExtended]

theorem Statement.expectPedersenKnowledge_eq_ok {h c : E} :
    s.expectPedersenKnowledge = .ok (h, c) ↔ s = .pedersenKnowledge h c := by
  cases s <;> simp [expectPedersenKnowledge]

theorem Statement.expectDjZero_eq_ok {key : DamgardJurik.Key} {c : Nat} :
    s.expectDjZero = .ok (key, c) ↔ s = .djZero key c := by
  cases s <;> simp [expectDjZero]

theorem Statement.expectDjProduct_eq_ok {key : DamgardJurik.Key} {c1 c2 c3 : Nat} :
    s.expectDjProduct = .ok (key, c1, c2, c3) ↔ s = .djProduct key c1 c2 c3 := by
  cases s <;> simp [expectDjProduct]

theorem Statement.expectAll_eq_ok {ss : List (Statement E)} :
    s.expectAll = .ok ss ↔ s = .all ss := by
  cases s <;> simp [expectAll]

theorem Statement.expectAny_eq_ok {ss : List (Statement E)} :
    s.expectAny = .ok ss ↔ s = .any ss := by
  cases s <;> simp [expectAny]

theorem Witness.expectAny_eq_ok {w w' : Witness} {index : Nat} :
    w.expectAny = .ok (index, w') ↔ w = .any index w' := by
  cases w <;> simp [expectAny]

theorem Message.expectElement_eq_ok {a : Bytes} : m.expectElement = .ok a ↔ m = .element a := by
  cases m <;> simp [expectElement]

theorem Message.expectElementPair_eq_ok {a b : Bytes} :
    m.expectElementPair = .ok (a, b) ↔ m = .elementPair a b := by
  cases m <;> simp [expectElementPair]

theorem Message.expectInteger_eq_ok {z : Nat} : m.expectInteger = .ok z ↔ m = .integer z := by
  cases m <;> simp [expectInteger]

theorem Message.expectOpening_eq_ok {u v : Nat} :
    m.expectOpening = .ok (u, v) ↔ m = .opening u v := by
  cases m <;> simp [expectOpening]

theorem Message.expectProductCommitment_eq_ok {a1 a2 : Nat} :
    m.expectProductCommitment = .ok (a1, a2) ↔ m = .productCommitment a1 a2 := by
  cases m <;> simp [expectProductCommitment]

theorem Message.expectProductResponse_eq_ok {z1 z2 z3 : Nat} :
    m.expectProductResponse = .ok (z1, z2, z3) ↔ m = .productResponse z1 z2 z3 := by
  cases m <;> simp [expectProductResponse]

theorem Message.expectMultiple_eq_ok {ms : List Message} :
    m.expectMultiple = .ok ms ↔ m = .multiple ms := by
  cases m <;> simp [expectMultiple]

theorem Message.expectOrResponse_eq_ok {cs : List Bytes} {ms : List Message} :
    m.expectOrResponse = .ok (cs, ms) ↔ m = .orResponse cs ms := by
  cases m <;> simp [expectOrResponse]

end TakenApart

/-! ## Randomised computations -/

namespace Sampling

@[simp] theorem always_pure {P : α → Prop} {a : α} : (pure a : Sampling α).Always P ↔ P a :=
  Iff.rfl

@[simp] theorem always_bind {Q : β → Prop} {c : Sampling α} {f : α → Sampling β} :
    (c >>= f).Always Q ↔ c.Always fun a => (f a).Always Q := by
  induction c with
  | done a => rfl
  | ask r next ih => exact forall₂_congr fun answer _ => ih answer

theorem Always.and {P Q : α → Prop} {c : Sampling α} (hP : c.Always P) (hQ : c.Always Q) :
    c.Always fun a => P a ∧ Q a := by
  induction c with
  | done a => exact ⟨hP, hQ⟩
  | ask r next ih => exact fun answer h => ih answer (hP answer h) (hQ answer h)

@[simp] theorem always_drawBytes {P : Bytes → Prop} {count : Nat} :
    (drawBytes count).Always P ↔ ∀ bs : Bytes, bs.length = count → P bs := Iff.rfl

end Sampling

end SigmaProofs
