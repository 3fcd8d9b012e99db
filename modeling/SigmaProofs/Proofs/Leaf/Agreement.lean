import SigmaProofs.Group.Ristretto
import SigmaProofs.Group.Secp256k1
import SigmaProofs.Proofs.Prover.History
import SigmaProofs.Proofs.Verifier.History
import SigmaProofs.Sampling.ByteStream

/-!
# The protocols about one exponent agree

A discrete logarithm is an exponent for one base, the generator, and a Diffie–Hellman tuple is one
for two. So both statements can also be proved by the protocol for any number of bases. Nobody
gains or loses by that: provers, simulators and verifiers do the same, except that the commitments
are wrapped in another way.

* `Sampling.SameDraws`: two computations draw the same, and the results are related.
* `Leaf.Widens`, `Leaf.SameCommitments`: statements and first messages of both protocols.
* `Leaf.commit_agrees`, `Leaf.simulate_agrees`, `Leaf.verify_agrees`: one message, run or verdict.
* `Prover.run_agrees`, `Verifier.run_agrees`: any sequence of calls.
* `Leaf.agrees`: all of it, in a group whose check covers the generator (`PrimeGroup.Vouched`).
-/

namespace SigmaProofs

variable {E : Type}

/-! ## Computations that draw the same -/

/-- The same is asked for, and for the same answers, whatever they are, the results are related. -/
inductive Sampling.SameDraws {α β : Type} (R : α → β → Prop) : Sampling α → Sampling β → Prop
  | done {a : α} {b : β} (h : R a b) : SameDraws R (.done a) (.done b)
  | ask (r : Request) {next : r.Answer → Sampling α} {next' : r.Answer → Sampling β}
      (h : ∀ answer, SameDraws R (next answer) (next' answer)) :
      SameDraws R (.ask r next) (.ask r next')

/-- Both succeed, with related results, or both fail with one error. -/
inductive SameResult {ε α β : Type} (R : α → β → Prop) : Except ε α → Except ε β → Prop
  | ok {a : α} {b : β} (h : R a b) : SameResult R (.ok a) (.ok b)
  | error (err : ε) : SameResult R (.error err) (.error err)

namespace Sampling.SameDraws

variable {α β γ δ : Type} {R : α → β → Prop} {Q : γ → δ → Prop}

theorem pure {a : α} {b : β} (h : R a b) : SameDraws R (Pure.pure a) (Pure.pure b) := .done h

theorem bind {c : Sampling α} {c' : Sampling β} {f : α → Sampling γ} {f' : β → Sampling δ}
    (h : SameDraws R c c') (hf : ∀ a b, R a b → SameDraws Q (f a) (f' b)) :
    SameDraws Q (c >>= f) (c' >>= f') := by
  induction h with
  | done h => exact hf _ _ h
  | ask r _ ih => exact .ask r ih

theorem refl (c : Sampling α) : SameDraws (· = ·) c c := by
  induction c with
  | done a => exact .done rfl
  | ask r next ih => exact .ask r ih

/-- After the same values were drawn. -/
theorem draw (c : Sampling α) {f : α → Sampling γ} {f' : α → Sampling δ}
    (hf : ∀ a, SameDraws Q (f a) (f' a)) : SameDraws Q (c >>= f) (c >>= f') :=
  (refl c).bind fun a _ h => h ▸ hf a

/-- On one stream of bytes the results are related, and as many bytes are drawn. -/
theorem run {c : Sampling α} {c' : Sampling β} (h : SameDraws R c c') (stream : ByteStream) :
    R (c.run stream).1 (c'.run stream).1 ∧ (c.run stream).2 = (c'.run stream).2 := by
  induction h generalizing stream with
  | done h => exact ⟨h, rfl⟩
  | ask r _ ih => exact ih _ _

end Sampling.SameDraws

/-! ## The generator -/

/-- If the check of the parameters passes, the generator belongs to the group. So it is in the
groups of this library, of which a Schnorr group computes it. -/
def PrimeGroup.Vouched (G : PrimeGroup E) : Prop :=
  G.isValid = true → G.isMember G.generator = true

theorem SchnorrGroup.vouched (S : SchnorrGroup) : S.toPrimeGroup.Vouched := by
  intro h
  rw [isValid_toPrimeGroup] at h
  simp only [hasPrimeOrder, Bool.and_eq_true, decide_eq_true_eq] at h
  obtain ⟨⟨⟨⟨⟨-, hg⟩, hgp⟩, hpow⟩, -⟩, -⟩ := h
  simp [toPrimeGroup, isMember, hgp, hpow, Nat.ne_of_gt (Nat.lt_trans Nat.zero_lt_one hg)]

theorem Ristretto.vouched : Ristretto.group.Vouched := fun _ => rfl

theorem Secp256k1.vouched : Secp256k1.group.Vouched := fun _ => rfl

namespace Leaf

variable {G : PrimeGroup E} {l : Leaf E}

/-! ## The same statement, the same commitments -/

/-- The statement of a protocol, and how it is put for any number of bases. -/
inductive Widens (G : PrimeGroup E) : Leaf E → Statement E → Statement E → Prop
  | dlog (h : E) : Widens G (.dlog G) (.dlog h) (.dhExtended [G.generator] [h])
  | dhTuple (h u v : E) :
      Widens G (.dhTuple G) (.dhTuple h u v) (.dhExtended [G.generator, h] [u, v])

/-- The first message of a protocol, and that for any number of bases with the same commitments. -/
inductive SameCommitments (G : PrimeGroup E) : Leaf E → Message → Message → Prop
  | dlog (a : Bytes) : SameCommitments G (.dlog G) (.element a) (.multiple [.element a])
  | dhTuple (a b : Bytes) :
      SameCommitments G (.dhTuple G) (.elementPair a b) (.multiple [.element a, .element b])

/-- Runs with the same commitments, challenge and response. -/
structure SameRun (G : PrimeGroup E) (l : Leaf E) (run run' : Conversation) : Prop where
  first : l.SameCommitments G run.first run'.first
  challenge : run.challenge = run'.challenge
  second : run.second = run'.second

/-! ## One message, run or verdict -/

/-- The same is drawn and kept for the response. -/
theorem commit_agrees {s s' : Statement E} (hs : l.Widens G s s') (t : Soundness) (w : Witness) :
    Sampling.SameDraws (SameResult fun x x' => x.1 = x'.1 ∧ l.SameCommitments G x.2 x'.2)
      (l.commit t ⟨s, w⟩) ((Leaf.dhExtended G).commit t ⟨s', w⟩) := by
  cases w with
  | exponent x =>
    cases hs with
    | dlog h => exact .draw G.drawExponent fun r => .pure (.ok ⟨rfl, .dlog _⟩)
    | dhTuple h u v => exact .draw G.drawExponent fun r => .pure (.ok ⟨rfl, .dhTuple _ _⟩)
  | _ => cases hs <;> exact .pure (.error _)

theorem simulate_agrees {s s' : Statement E} (hs : l.Widens G s s') (t : Soundness)
    (challenge : Bytes) :
    Sampling.SameDraws (SameResult (l.SameRun G)) (l.simulate t s challenge)
      ((Leaf.dhExtended G).simulate t s' challenge) := by
  rw [simulate, simulate]
  cases t.requireChallenge challenge with
  | error fault => exact .pure (.error _)
  | ok =>
    cases hs with
    | dlog h => exact .draw G.drawExponent fun z => .pure (.ok ⟨.dlog _, rfl, rfl⟩)
    | dhTuple h u v => exact .draw G.drawExponent fun z => .pure (.ok ⟨.dhTuple _ _, rfl, rfl⟩)

section Verify

variable [DecidableEq E]

theorem accepts_generator (hG : G.isMember G.generator = true) (h : E) (e z : Nat) (a : Bytes) :
    DhExtended.accepts G e z [G.generator] [h] [.element a] = .ok (Dlog.accepts G h e a z) := by
  cases ha : G.decode? a <;> simp [DhExtended.accepts, Dlog.accepts, Message.expectElement, ha, hG]

theorem accepts_generator_base (hG : G.isMember G.generator = true) (h u v : E) (e z : Nat)
    (a b : Bytes) :
    DhExtended.accepts G e z [G.generator, h] [u, v] [.element a, .element b] =
      .ok (DhTuple.accepts G h u v e a b z) := by
  cases ha : G.decode? a <;> cases hb : G.decode? b <;>
    simp [DhExtended.accepts, DhTuple.accepts, Message.expectElement, ha, hb, hG]
  ac_rfl

/-- A commitment that is no element is not accepted by either, and the members are the same if the
generator is one. -/
theorem verify_agrees (hG : G.isMember G.generator = true) {s s' : Statement E}
    (hs : l.Widens G s s') {first first' : Message} (hfirst : l.SameCommitments G first first')
    (t : Soundness) (challenge : Bytes) (second : Message) :
    (Leaf.dhExtended G).verify t challenge s' first' second =
      l.verify t challenge s first second := by
  cases hs with
  | dlog h =>
    cases hfirst with
    | dlog a =>
      exact bind_congr fun z => accepts_generator hG h (challengeNumber challenge) z a
  | dhTuple h u v =>
    cases hfirst with
    | dhTuple a b =>
      exact bind_congr fun z => accepts_generator_base hG h u v (challengeNumber challenge) z a b

end Verify

end Leaf

variable {G : PrimeGroup E} {l : Leaf E} {t : Soundness}

/-! ## Any sequence of calls of a prover -/

namespace Prover

/-- Calls with the same statement, witness and challenge. -/
inductive Call.Widens (G : PrimeGroup E) (l : Leaf E) : Call E → Call E → Prop
  | commit {s s' : Statement E} (hs : l.Widens G s s') (w : Witness) :
      Widens G l (.commit ⟨s, w⟩) (.commit ⟨s', w⟩)
  | respond (challenge : Bytes) : Widens G l (.respond challenge) (.respond challenge)
  | reset : Widens G l .reset .reset

/-- Outcomes with the same commitments or response. -/
inductive Outcome.Agrees (G : PrimeGroup E) (l : Leaf E) : Outcome → Outcome → Prop
  | committed {first first' : Except ProtocolError Message}
      (h : SameResult (l.SameCommitments G) first first') :
      Agrees G l (.committed first) (.committed first')
  | responded (second : Except ProtocolError Message) :
      Agrees G l (.responded second) (.responded second)
  | erased : Agrees G l .erased .erased

/-- A prover of the protocol, and one for any number of bases that keeps the same. -/
def Alike (G : PrimeGroup E) (t : Soundness) (l : Leaf E) (p p' : Prover E) : Prop :=
  ∃ pending, p = .leaf t l pending ∧ p' = .leaf t (.dhExtended G) pending

theorem commit_agrees {s s' : Statement E} (hs : l.Widens G s s') (pending : Option Pending)
    (w : Witness) :
    Sampling.SameDraws
      (fun x x' => SameResult (l.SameCommitments G) x.1 x'.1 ∧ Alike G t l x.2 x'.2)
      ((Prover.leaf t l pending).commit ⟨s, w⟩)
      ((Prover.leaf t (.dhExtended G) pending).commit ⟨s', w⟩) := by
  refine (Leaf.commit_agrees hs t w).bind ?_
  rintro _ _ (@⟨⟨kept, first⟩, ⟨_, first'⟩, rfl, hfirst⟩ | ⟨err⟩)
  · exact .pure ⟨.ok hfirst, some kept, rfl, rfl⟩
  · exact .pure ⟨.error _, none, rfl, rfl⟩

theorem step_agrees {p p' : Prover E} (hp : Alike G t l p p') {call call' : Call E}
    (hcall : call.Widens G l call') :
    Sampling.SameDraws (fun x x' => x.1.Agrees G l x'.1 ∧ Alike G t l x.2 x'.2) (p.step call)
      (p'.step call') := by
  obtain ⟨pending, rfl, rfl⟩ := hp
  cases hcall with
  | @commit s s' hs w =>
    refine (commit_agrees hs pending w).bind ?_
    rintro ⟨first, q⟩ ⟨first', q'⟩ ⟨hfirst, hq⟩
    exact .pure ⟨.committed hfirst, hq⟩
  | respond challenge =>
    cases pending with
    | none => exact .pure ⟨.responded _, none, rfl, rfl⟩
    | some pending =>
      simp only [step, respond]
      cases t.requireChallenge challenge <;> exact .pure ⟨.responded _, none, rfl, rfl⟩
  | reset => exact .pure ⟨.erased, none, rfl, rfl⟩

/-- Whatever is asked of them, two provers that keep the same agree from then on. -/
theorem run_agrees {p p' : Prover E} (hp : Alike G t l p p') {calls calls' : List (Call E)}
    (hcalls : List.Forall₂ (Call.Widens G l) calls calls') :
    Sampling.SameDraws
      (fun x x' => List.Forall₂ (Outcome.Agrees G l) x.1 x'.1 ∧ Alike G t l x.2 x'.2)
      (p.run calls) (p'.run calls') := by
  induction hcalls generalizing p p' with
  | nil => exact .pure ⟨.nil, hp⟩
  | cons hcall _ ih =>
    refine (step_agrees hp hcall).bind ?_
    rintro ⟨outcome, q⟩ ⟨outcome', q'⟩ ⟨houtcome, hq⟩
    refine (ih hq).bind ?_
    rintro ⟨outcomes, r⟩ ⟨outcomes', r'⟩ ⟨houtcomes, hr⟩
    exact .pure ⟨.cons houtcome houtcomes, hr⟩

end Prover

/-! ## Any sequence of calls of a verifier -/

namespace Verifier

variable [DecidableEq E]

/-- Calls with the same challenge, or the same statement and messages. -/
inductive Call.Widens (G : PrimeGroup E) (l : Leaf E) : Call E → Call E → Prop
  | draw : Widens G l .draw .draw
  | keep (challenge : Bytes) : Widens G l (.keep challenge) (.keep challenge)
  | reset : Widens G l .reset .reset
  | verify {s s' : Statement E} (hs : l.Widens G s s') {first first' : Message}
      (hfirst : l.SameCommitments G first first') (second : Message) :
      Widens G l (.verify s first second) (.verify s' first' second)

/-- A verifier of the protocol, and one for any number of bases that holds the same challenge. -/
def Alike (G : PrimeGroup E) (l : Leaf E) (v v' : Verifier E) : Prop :=
  ∃ slot, v = .leaf slot l ∧ v' = .leaf slot (.dhExtended G)

theorem step_agrees (hG : G.isMember G.generator = true) {v v' : Verifier E} (hv : Alike G l v v')
    {call call' : Call E} (hcall : call.Widens G l call') :
    Sampling.SameDraws (fun x x' => x.1 = x'.1 ∧ Alike G l x.2 x'.2) (v.step call)
      (v'.step call') := by
  obtain ⟨slot, rfl, rfl⟩ := hv
  cases hcall with
  | draw =>
    simp only [step, drawChallenge, bind_assoc, pure_bind]
    exact .draw slot.soundness.drawChallenge fun challenge => .pure ⟨rfl, _, rfl, rfl⟩
  | keep challenge =>
    simp only [step, keepChallenge, soundness, Verifier.slot]
    cases slot.soundness.requireChallenge challenge <;> exact .pure ⟨rfl, _, rfl, rfl⟩
  | reset => exact .pure ⟨rfl, _, rfl, rfl⟩
  | @verify s s' hs first first' hfirst second =>
    obtain ⟨t, held⟩ := slot
    simp only [step, verify]
    cases held with
    | none => exact .pure ⟨rfl, _, rfl, rfl⟩
    | some challenge =>
      have hverdict := Leaf.verify_agrees hG hs hfirst t challenge second
      exact .pure ⟨congrArg Outcome.judged hverdict.symm, _, rfl, rfl⟩

theorem run_agrees (hG : G.isMember G.generator = true) {v v' : Verifier E} (hv : Alike G l v v')
    {calls calls' : List (Call E)} (hcalls : List.Forall₂ (Call.Widens G l) calls calls') :
    Sampling.SameDraws (fun x x' => x.1 = x'.1 ∧ Alike G l x.2 x'.2) (v.run calls)
      (v'.run calls') := by
  induction hcalls generalizing v v' with
  | nil => exact .pure ⟨rfl, hv⟩
  | cons hcall _ ih =>
    refine (step_agrees hG hv hcall).bind ?_
    rintro ⟨outcome, w⟩ ⟨_, w'⟩ ⟨rfl, hw⟩
    refine (ih hw).bind ?_
    rintro ⟨outcomes, r⟩ ⟨_, r'⟩ ⟨rfl, hr⟩
    exact .pure ⟨rfl, hr⟩

end Verifier

/-! ## All three parties -/

/-- The protocol for any number of bases does what `l` does. -/
structure Leaf.Agrees [DecidableEq E] (G : PrimeGroup E) (t : Soundness) (l : Leaf E) : Prop where
  /-- Both can be built, or neither. -/
  check : (Leaf.dhExtended G).check t = l.check t
  /-- Provers draw the same, and commitments and responses are the same, -/
  prover : ∀ {p p' : Prover E}, Prover.Alike G t l p p' → ∀ {calls calls' : List (Prover.Call E)},
    List.Forall₂ (Prover.Call.Widens G l) calls calls' →
      Sampling.SameDraws (fun x x' => List.Forall₂ (Prover.Outcome.Agrees G l) x.1 x'.1 ∧
        Prover.Alike G t l x.2 x'.2) (p.run calls) (p'.run calls')
  /-- so do simulators, for a given challenge -/
  simulateWith : ∀ {s s' : Statement E}, l.Widens G s s' → ∀ challenge,
    Sampling.SameDraws (SameResult (l.SameRun G))
      ((Protocol.leaf t l).simulateWith s challenge)
      ((Protocol.leaf t (.dhExtended G)).simulateWith s' challenge)
  /-- and for one that they draw, -/
  simulate : ∀ {s s' : Statement E}, l.Widens G s s' →
    Sampling.SameDraws (SameResult (l.SameRun G)) ((Protocol.leaf t l).simulate s)
      ((Protocol.leaf t (.dhExtended G)).simulate s')
  /-- and verifiers come to the same verdicts. -/
  verifier : ∀ {v v' : Verifier E}, Verifier.Alike G l v v' →
    ∀ {calls calls' : List (Verifier.Call E)},
      List.Forall₂ (Verifier.Call.Widens G l) calls calls' →
        Sampling.SameDraws (fun x x' => x.1 = x'.1 ∧ Verifier.Alike G l x.2 x'.2) (v.run calls)
          (v'.run calls')

theorem Leaf.Agrees.of_mem [DecidableEq E] (hG : G.isMember G.generator = true)
    (hcheck : (Leaf.dhExtended G).check t = l.check t) : l.Agrees G t where
  check := hcheck
  prover hp _ _ := Prover.run_agrees hp
  simulateWith hs := Leaf.simulate_agrees hs t
  simulate hs := .draw t.drawChallenge fun challenge => Leaf.simulate_agrees hs t challenge
  verifier hv _ _ := Verifier.run_agrees hG hv

/-- In a valid group, the protocols for a discrete logarithm and for a Diffie–Hellman tuple are
cases of the protocol for any number of bases: the generator is a member, so that nothing is
refused for it. -/
theorem Leaf.agrees [DecidableEq E] (hG : G.isValid = true) (hvouched : G.Vouched) (t : Soundness) :
    (Leaf.dlog G).Agrees G t ∧ (Leaf.dhTuple G).Agrees G t :=
  ⟨.of_mem (hvouched hG) rfl, .of_mem (hvouched hG) rfl⟩

theorem Leaf.agrees_small :
    (Leaf.dlog SchnorrGroup.small.toPrimeGroup).Agrees SchnorrGroup.small.toPrimeGroup
        Protocol.smallSoundness ∧
      (Leaf.dhTuple SchnorrGroup.small.toPrimeGroup).Agrees SchnorrGroup.small.toPrimeGroup
        Protocol.smallSoundness :=
  Leaf.agrees SchnorrGroup.small_isValid SchnorrGroup.small.vouched Protocol.smallSoundness

end SigmaProofs
