import Mathlib.Data.FinEnum
import Mathlib.Data.Set.Finite.List
import SigmaProofs.Proofs.Challenge
import SigmaProofs.Proofs.Modular
import SigmaProofs.Proofs.Steps

/-!
# Couplings of randomised computations

`c.Draws` are the values that a run of `c` may draw: an answer for each request, and each of them
fits. Two computations are coupled (`Coupled R c c'`) if their draws correspond to each other one to
one, so that results that correspond are related by `R` and the same requests are answered, in
whatever order. For equal results, nobody who sees a result can tell which computation it is from.

* `drawn`: the values of a run in order, with which it can be repeated (`replay_drawn`).
* `always_iff`: what holds of every run holds for all draws.
* `Coupled.bind`: computations are coupled step by step.
* `coupled_ask`: the answers to a request are coupled by a map that is injective on those that fit.
* `Coupled.exchange`: steps that do not depend on each other change places.
-/

namespace SigmaProofs.Sampling

variable {α β γ δ : Type}

/-! ## The draws of a computation -/

/-- The values that a run may draw. -/
def Draws : Sampling α → Type
  | done _ => Unit
  | ask r next => (answer : {a : r.Answer // r.Fits a}) × (next answer.val).Draws

/-- The result of the run that draws the given values. -/
def result : (c : Sampling α) → c.Draws → α
  | done a, _ => a
  | ask _ next, d => (next d.1.val).result d.2

/-- The requests that are asked in the run that draws the given values, in order. -/
def requests : (c : Sampling α) → c.Draws → List Request
  | done _, _ => []
  | ask r next, d => r :: (next d.1.val).requests d.2

/-- The answers in the run that draws the given values, in order. -/
def drawn : (c : Sampling α) → c.Draws → List Drawn
  | done _, _ => []
  | ask r next, d => ⟨r, d.1.val⟩ :: (next d.1.val).drawn d.2

theorem map_fst_drawn (c : Sampling α) (d : c.Draws) :
    (c.drawn d).map (fun x => x.1) = c.requests d := by
  induction c with
  | done a => rfl
  | ask r next ih => exact congrArg (r :: ·) (ih d.1.val d.2)

/-- Given the values that were drawn, a computation gives the result again. -/
theorem replay_drawn (c : Sampling α) (d : c.Draws) :
    c.replay (c.drawn d) = some (c.result d) := by
  induction c with
  | done a => rfl
  | ask r next ih =>
    rw [drawn, replay, dif_pos rfl]
    exact ih d.1.val d.2

theorem drawn_injective (c : Sampling α) : Function.Injective c.drawn := by
  induction c with
  | done a => exact fun _ _ _ => rfl
  | ask r next ih =>
    rintro ⟨⟨a, ha⟩, d⟩ ⟨⟨b, hb⟩, d'⟩ h
    obtain ⟨hfirst, hrest⟩ := List.cons.inj h
    obtain rfl : a = b := by simpa using hfirst
    obtain rfl := ih a hrest
    rfl

theorem always_iff {P : α → Prop} {c : Sampling α} : c.Always P ↔ ∀ d, P (c.result d) := by
  induction c with
  | done a => exact ⟨fun h _ => h, fun h => h ()⟩
  | ask r next ih =>
    constructor
    · rintro h ⟨⟨answer, hfits⟩, d⟩
      exact (ih answer).mp (h answer hfits) d
    · intro h answer hfits
      exact (ih answer).mpr fun d => h ⟨⟨answer, hfits⟩, d⟩

/-- `P` holds of the result and of what was drawn for it, in every run. -/
def AlwaysDrawn (P : α → List Drawn → Prop) : Sampling α → Prop
  | done a => P a []
  | ask r next => ∀ answer, r.Fits answer →
    (next answer).AlwaysDrawn fun a answers => P a (⟨r, answer⟩ :: answers)

theorem alwaysDrawn_iff {P : α → List Drawn → Prop} {c : Sampling α} :
    c.AlwaysDrawn P ↔ ∀ d, P (c.result d) (c.drawn d) := by
  induction c generalizing P with
  | done a => exact ⟨fun h _ => h, fun h => h ()⟩
  | ask r next ih =>
    constructor
    · rintro h ⟨⟨answer, hfits⟩, d⟩
      exact (ih answer).mp (h answer hfits) d
    · intro h answer hfits
      exact (ih answer).mpr fun d => h ⟨⟨answer, hfits⟩, d⟩

theorem AlwaysDrawn.bind {P : α → List Drawn → Prop} {Q : β → List Drawn → Prop} {c : Sampling α}
    {f : α → Sampling β} (h : c.AlwaysDrawn P) (hf : ∀ a answers, P a answers →
      (f a).AlwaysDrawn fun b answers' => Q b (answers ++ answers')) :
    (c >>= f).AlwaysDrawn Q := by
  induction c generalizing P Q with
  | done a => exact hf a [] h
  | ask r next ih =>
    exact fun answer hfits => ih answer (h answer hfits) fun a answers => hf a _

/-- The draws of two computations, one after the other. -/
theorem exists_split (c : Sampling α) (f : α → Sampling β) :
    ∃ split : (c >>= f).Draws ≃ (d : c.Draws) × (f (c.result d)).Draws,
      ∀ d, (c >>= f).result d = (f (c.result (split d).1)).result (split d).2 ∧
        (c >>= f).requests d =
          c.requests (split d).1 ++ (f (c.result (split d).1)).requests (split d).2 := by
  induction c with
  | done a =>
    refine ⟨⟨fun d => ⟨(), d⟩, fun x => x.2, fun d => rfl, fun x => rfl⟩, fun d => ⟨rfl, rfl⟩⟩
  | ask r next ih =>
    choose split hsplit using ih
    let inner : (ask r next >>= f).Draws ≃ (a : {a : r.Answer // r.Fits a}) ×
        (d : (next a.val).Draws) × (f ((next a.val).result d)).Draws :=
      Equiv.sigmaCongrRight fun a => split a.val
    let outer := Equiv.sigmaAssoc fun (a : {a : r.Answer // r.Fits a}) (d : (next a.val).Draws) =>
      (f ((next a.val).result d)).Draws
    refine ⟨inner.trans outer.symm, ?_⟩
    rintro ⟨a, d⟩
    exact ⟨(hsplit a.val d).1, congrArg (r :: ·) (hsplit a.val d).2⟩

/-! ## Couplings -/

/-- The draws correspond one to one, with results in `R` and the same requests. -/
def Coupled (R : α → β → Prop) (c : Sampling α) (c' : Sampling β) : Prop :=
  ∃ f : c.Draws ≃ c'.Draws, ∀ d,
    R (c.result d) (c'.result (f d)) ∧ (c'.requests (f d)).Perm (c.requests d)

theorem coupled_pure {R : α → β → Prop} {a : α} {b : β} (h : R a b) :
    Coupled R (pure a) (pure b) :=
  ⟨Equiv.refl Unit, fun _ => ⟨h, .refl _⟩⟩

namespace Coupled

variable {R : α → β → Prop} {c : Sampling α} {c' : Sampling β}

theorem mono {R' : α → β → Prop} (h : Coupled R c c') (hR : ∀ a b, R a b → R' a b) :
    Coupled R' c c' := by
  obtain ⟨f, hf⟩ := h
  exact ⟨f, fun d => ⟨hR _ _ (hf d).1, (hf d).2⟩⟩

theorem symm (h : Coupled R c c') : Coupled (fun b a => R a b) c' c := by
  obtain ⟨f, hf⟩ := h
  refine ⟨f.symm, fun d => ?_⟩
  have h := hf (f.symm d)
  rw [Equiv.apply_symm_apply] at h
  exact ⟨h.1, h.2.symm⟩

theorem symm_eq {c₁ c₂ : Sampling α} (h : Coupled Eq c₁ c₂) : Coupled Eq c₂ c₁ :=
  h.symm.mono fun _ _ heq => heq.symm

theorem trans {S : β → γ → Prop} {c'' : Sampling γ} (h : Coupled R c c') (h' : Coupled S c' c'') :
    Coupled (fun a e => ∃ b, R a b ∧ S b e) c c'' := by
  obtain ⟨f, hf⟩ := h
  obtain ⟨g, hg⟩ := h'
  exact ⟨f.trans g, fun d => ⟨⟨_, (hf d).1, (hg (f d)).1⟩, (hg (f d)).2.trans (hf d).2⟩⟩

/-- Equal results are passed on to the next coupling. -/
theorem trans_eq {S : α → γ → Prop} {c₁ c₂ : Sampling α} {c₃ : Sampling γ} (h : Coupled Eq c₁ c₂)
    (h' : Coupled S c₂ c₃) : Coupled S c₁ c₃ := by
  refine (h.trans h').mono ?_
  rintro a e ⟨_, rfl, hS⟩
  exact hS

theorem eq_trans {S : α → β → Prop} {c₁ : Sampling α} {c₂ c₃ : Sampling β} (h : Coupled S c₁ c₂)
    (h' : Coupled Eq c₂ c₃) : Coupled S c₁ c₃ := by
  refine (h.trans h').mono ?_
  rintro a e ⟨_, hS, rfl⟩
  exact hS

/-- A computation is coupled with itself, and what always holds of it may be used. -/
theorem refl_of_always {P : α → Prop} {c : Sampling α} (h : c.Always P) :
    Coupled (fun a b => a = b ∧ P a) c c :=
  ⟨Equiv.refl _, fun d => ⟨⟨rfl, always_iff.mp h d⟩, .refl _⟩⟩

theorem refl (c : Sampling α) : Coupled Eq c c :=
  ⟨Equiv.refl _, fun _ => ⟨rfl, .refl _⟩⟩

/-- Coupled computations go on to coupled computations. -/
theorem bind {S : γ → δ → Prop} {f : α → Sampling γ} {f' : β → Sampling δ}
    (h : Coupled R c c') (hf : ∀ a b, R a b → Coupled S (f a) (f' b)) :
    Coupled S (c >>= f) (c' >>= f') := by
  obtain ⟨g, hg⟩ := h
  obtain ⟨split, hsplit⟩ := exists_split c f
  obtain ⟨split', hsplit'⟩ := exists_split c' f'
  choose k hk using fun d => hf _ _ (hg d).1
  let m := split.trans ((Equiv.sigmaCongr g k).trans split'.symm)
  refine ⟨m, fun d => ?_⟩
  obtain ⟨hresult, hrequests⟩ := hsplit d
  have hm : split' (m d) = ⟨g (split d).1, k _ (split d).2⟩ := Equiv.apply_symm_apply _ _
  obtain ⟨hresult', hrequests'⟩ := hsplit' (m d)
  rw [hresult, hrequests, hresult', hrequests', hm]
  exact ⟨(hk _ _).1, (hg _).2.append (hk _ _).2⟩

theorem bind_left {c₁ c₂ : Sampling α} (h : Coupled Eq c₁ c₂) (f : α → Sampling β) :
    Coupled Eq (c₁ >>= f) (c₂ >>= f) :=
  h.bind fun _ _ heq => heq ▸ refl _

theorem bind_right {S : β → γ → Prop} (c : Sampling α) {f : α → Sampling β} {f' : α → Sampling γ}
    (hf : ∀ a, Coupled S (f a) (f' a)) : Coupled S (c >>= f) (c >>= f') :=
  (refl c).bind fun a _ heq => heq ▸ hf a

/-- After a common step, what always holds of its result may be used. -/
theorem bind_always {P : α → Prop} {S : β → γ → Prop} {c : Sampling α} {f : α → Sampling β}
    {f' : α → Sampling γ} (h : c.Always P) (hf : ∀ a, P a → Coupled S (f a) (f' a)) :
    Coupled S (c >>= f) (c >>= f') :=
  (refl_of_always h).bind fun a _ heq => heq.1 ▸ hf a heq.2

end Coupled

/-! ## Computations that do not fail -/

/-- The values of a computation that does not fail. -/
def values {ε : Type} [Inhabited α] (c : Sampling (Except ε α)) : Sampling α := do
  match ← c with
  | .ok a => return a
  | .error _ => return default

theorem coupled_values {ε : Type} [Inhabited α] {P : α → Prop} {c : Sampling (Except ε α)}
    (h : c.Always fun x => ∃ a, x = .ok a ∧ P a) :
    Coupled (fun x a => x = .ok a ∧ P a) c c.values := by
  have hvalues : Coupled (fun x a => x = .ok a ∧ P a) (c >>= pure) c.values := by
    refine (Coupled.refl_of_always h).bind ?_
    rintro _ _ ⟨rfl, a, rfl, ha⟩
    exact coupled_pure ⟨rfl, ha⟩
  have hpure : c >>= pure = c := Sampling.bind_pure c
  rwa [hpure] at hvalues

theorem always_values {ε : Type} [Inhabited α] {P : α → Prop} {c : Sampling (Except ε α)}
    (h : c.Always fun x => ∃ a, x = .ok a ∧ P a) : c.values.Always P := by
  rw [values, always_bind]
  refine h.mono ?_
  rintro _ ⟨a, rfl, ha⟩
  exact ha

/-! ## Steps that change places -/

/-- The draws of two computations that do not depend on each other. -/
theorem exists_pair (c : Sampling α) (c' : Sampling β) :
    ∃ pair : (c >>= fun a => c' >>= fun b => pure (a, b)).Draws ≃ c.Draws × c'.Draws,
      ∀ d, (c >>= fun a => c' >>= fun b => pure (a, b)).result d =
          (c.result (pair d).1, c'.result (pair d).2) ∧
        (c >>= fun a => c' >>= fun b => pure (a, b)).requests d =
          c.requests (pair d).1 ++ c'.requests (pair d).2 := by
  obtain ⟨split, hsplit⟩ := exists_split c fun a => c' >>= fun b => pure (a, b)
  choose split' hsplit' using fun a => exists_split c' fun b => (pure (a, b) : Sampling (α × β))
  have unit : ∀ x : α × β, Unique (pure x : Sampling (α × β)).Draws :=
    fun x => inferInstanceAs (Unique Unit)
  let second (a : α) : (c' >>= fun b => pure (a, b)).Draws ≃ c'.Draws :=
    (split' a).trans (Equiv.sigmaUnique _ _)
  let pair := split.trans ((Equiv.sigmaCongrRight fun d => second (c.result d)).trans
    (Equiv.sigmaEquivProd c.Draws c'.Draws))
  refine ⟨pair, fun d => ?_⟩
  obtain ⟨hresult, hrequests⟩ := hsplit d
  obtain ⟨hresult', hrequests'⟩ := hsplit' (c.result (split d).1) (split d).2
  rw [hresult, hrequests, hresult', hrequests']
  exact ⟨rfl, congrArg (c.requests (split d).1 ++ ·) (List.append_nil _)⟩

/-- Two steps that do not depend on each other change places. -/
theorem Coupled.exchange (c : Sampling α) (c' : Sampling β) (f : α → β → Sampling γ) :
    Coupled Eq (c >>= fun a => c' >>= fun b => f a b) (c' >>= fun b => c >>= fun a => f a b) := by
  obtain ⟨pair, hpair⟩ := exists_pair c c'
  obtain ⟨pair', hpair'⟩ := exists_pair c' c
  have hswap : Coupled (fun p p' => p' = p.swap) (c >>= fun a => c' >>= fun b => pure (a, b))
      (c' >>= fun b => c >>= fun a => pure (b, a)) := by
    refine ⟨pair.trans ((Equiv.prodComm _ _).trans pair'.symm), fun d => ?_⟩
    obtain ⟨hresult, hrequests⟩ := hpair d
    obtain ⟨hresult', hrequests'⟩ := hpair' (pair'.symm (pair d).swap)
    rw [Equiv.apply_symm_apply] at hresult' hrequests'
    simp only [Equiv.trans_apply, Equiv.prodComm_apply]
    rw [hresult, hrequests, hresult', hrequests']
    exact ⟨rfl, List.perm_append_comm⟩
  have h : Coupled Eq ((c >>= fun a => c' >>= fun b => pure (a, b)) >>= fun p => f p.1 p.2)
      ((c' >>= fun b => c >>= fun a => pure (b, a)) >>= fun p => f p.2 p.1) := by
    refine hswap.bind ?_
    rintro ⟨a, b⟩ _ rfl
    exact .refl _
  simpa only [LawfulMonad.bind_assoc, LawfulMonad.pure_bind] using h

/-! ## Draws that are changed -/

instance (r : Request) : Finite {a : r.Answer // r.Fits a} := by
  cases r with
  | bytes count => exact (List.finite_length_eq UInt8 count).to_subtype
  | below bound => exact (Set.finite_Iio bound).to_subtype
  | unit modulus => exact ((Set.finite_Iio modulus).subset fun a h => h.2.1).to_subtype

/-- The answers to a request are changed one to one. -/
theorem coupled_ask (r : Request) {change : r.Answer → r.Answer}
    (hfits : ∀ a, r.Fits a → r.Fits (change a))
    (hinj : ∀ a b, r.Fits a → r.Fits b → change a = change b → a = b) :
    Coupled (fun a b => b = change a ∧ r.Fits a) (ask r done) (ask r done) := by
  let change' (a : {a : r.Answer // r.Fits a}) : {a : r.Answer // r.Fits a} :=
    ⟨change a.val, hfits a.val a.property⟩
  have hinj' : Function.Injective change' := fun a b h =>
    Subtype.ext (hinj a.val b.val a.property b.property (congrArg Subtype.val h))
  let f := Equiv.ofBijective change' (Finite.injective_iff_bijective.mp hinj')
  exact ⟨Equiv.sigmaCongr f fun _ => Equiv.refl Unit,
    fun d => ⟨⟨rfl, d.1.property⟩, .refl _⟩⟩

/-- A string may be added to bytes that are drawn. -/
theorem coupled_xor {n : Nat} {x : Bytes} (hx : x.length = n) :
    Coupled (fun a b => b = x.xor a ∧ a.length = n) (drawBytes n) (drawBytes n) := by
  refine coupled_ask (.bytes n) (fun a _ => (Bytes.xor_length x a).trans hx) fun a b ha hb h => ?_
  have hxa : x.length = a.length := hx.trans ha.symm
  have hxb : x.length = b.length := hx.trans hb.symm
  rw [Bytes.xor_comm hxa, Bytes.xor_comm hxb] at h
  rw [← Bytes.xor_xor_cancel hxa.symm, h, Bytes.xor_xor_cancel hxb.symm]

/-- A number may be added to one that is drawn below a bound. -/
theorem coupled_add {q : Nat} (hq : 0 < q) (x : Nat) :
    Coupled (fun a b => b = (a + x) % q ∧ a < q) (drawBelow q) (drawBelow q) := by
  refine coupled_ask (.below q) (fun a _ => Nat.mod_lt _ hq) fun a b ha hb h => ?_
  have hmod : a ≡ b [MOD q] := Nat.ModEq.add_right_cancel' x h
  exact hmod.eq_of_lt_of_lt ha hb

/-- A unit that is drawn may be multiplied by a unit. -/
theorem coupled_mul {n : Nat} (hn : 1 < n) {x : Nat} (hx : x.Coprime n) :
    Coupled (fun a b => b = a * x % n ∧ a.Coprime n) (drawUnit n) (drawUnit n) := by
  have hcoprime : ∀ a : Nat, a.Coprime n → (a * x % n).Coprime n := fun a ha =>
    coprime_of_modEq (Nat.mod_modEq _ n) (ha.mul_left hx)
  have hpos : ∀ a : Nat, a.Coprime n → 0 < a * x % n := fun a ha => by
    refine Nat.pos_of_ne_zero fun h0 => ?_
    have hzero := hcoprime a ha
    rw [h0, Nat.coprime_zero_left] at hzero
    omega
  refine (coupled_ask (.unit n) (fun a ha => ⟨hpos a ha.2.2, Nat.mod_lt _ (by omega),
    hcoprime a ha.2.2⟩) fun a b ha hb h => ?_).mono fun a b hab => ⟨hab.1, hab.2.2.2⟩
  have hmod : a ≡ b [MOD n] := Nat.ModEq.cancel_right_of_coprime hx.symm h
  exact hmod.eq_of_lt_of_lt ha.2.1 hb.2.1

end SigmaProofs.Sampling
