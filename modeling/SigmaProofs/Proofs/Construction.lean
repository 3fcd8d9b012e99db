import SigmaProofs.Proofs.Coupling
import SigmaProofs.Proofs.Prover.Shares
import SigmaProofs.Proofs.Verifier.History

/-!
# Provers and verifiers that can be obtained

Compositions are made of provers or verifiers that may have been used before, and are used and put
together again.

* `Prover.allOf`, `Prover.anyOf`, `Verifier.allOf`, `Verifier.anyOf`: compositions of provers and of
  verifiers. Of new ones they are new provers and verifiers of the composed protocol.
* `Prover.Obtainable`, `Verifier.Obtainable`: what can be obtained by construction and calls. Its
  protocol is one that can be built, and the challenges that it keeps have the right length
  (`Prover.Obtainable.constructible_and_shares`, `Verifier.Obtainable.constructible_and_challenge`).
* `PartOf`: the parts of a tree. In a tree that can be built, all of them have one soundness
  parameter (`Protocol.PartOf.uniform`).
-/

namespace SigmaProofs

variable {E : Type}

/-! ## Parts of a protocol -/

namespace Protocol

/-- The protocol is a part of the other one, or the whole of it. -/
inductive PartOf : Protocol E → Protocol E → Prop
  | whole (P : Protocol E) : PartOf P P
  | adapted (c : Conversion E) {Q P : Protocol E} (h : PartOf Q P) : PartOf Q (.adapted c P)
  | all (t : Soundness) {Q b : Protocol E} {bs : List (Protocol E)} (hb : b ∈ bs)
      (h : PartOf Q b) : PartOf Q (.all t bs)
  | any (t : Soundness) {Q b : Protocol E} {bs : List (Protocol E)} (hb : b ∈ bs)
      (h : PartOf Q b) : PartOf Q (.any t bs)

theorem PartOf.uniform {t : Soundness} {P Q : Protocol E} (h : Q.PartOf P) (hP : P.Uniform t) :
    Q.Uniform t := by
  induction h with
  | whole => exact hP
  | adapted c _ ih =>
    obtain - | ⟨-, hP⟩ := hP
    exact ih hP
  | all t' hb _ ih =>
    obtain - | - | ⟨-, hbs⟩ := hP
    exact ih (hbs _ hb)
  | any t' hb _ ih =>
    obtain - | - | - | ⟨-, hbs⟩ := hP
    exact ih (hbs _ hb)

end Protocol

/-! ## Provers -/

namespace Prover

/-- The provers of all statements, at least one, with a common soundness parameter. -/
def allOf (branches : List (Prover E)) : Except ConfigError (Prover E) := do
  return .all (← sharedSoundness 1 (branches.map soundness)) false branches

/-- The provers of the statements of which one is to hold, at least two, with a common soundness
parameter. -/
def anyOf (branches : List (Prover E)) : Except ConfigError (Prover E) := do
  return .any (← sharedSoundness 2 (branches.map soundness)) none branches

theorem map_soundness_ofProtocols (Ps : List (Protocol E)) :
    (ofProtocols Ps).map soundness = Ps.map Protocol.soundness := by
  rw [ofProtocols_eq_map, List.map_map]
  refine List.map_congr_left fun P _ => ?_
  rw [Function.comp_apply, ← soundness_protocol, protocol_ofProtocol]

/-- A composition of new provers is a new prover of the composition. -/
theorem allOf_ofProtocols (Ps : List (Protocol E)) :
    allOf (ofProtocols Ps) = (Protocol.allOf Ps).map ofProtocol := by
  rw [allOf, Protocol.allOf, map_soundness_ofProtocols]
  cases sharedSoundness 1 (Ps.map Protocol.soundness) <;> rfl

theorem anyOf_ofProtocols (Ps : List (Protocol E)) :
    anyOf (ofProtocols Ps) = (Protocol.anyOf Ps).map ofProtocol := by
  rw [anyOf, Protocol.anyOf, map_soundness_ofProtocols]
  cases sharedSoundness 2 (Ps.map Protocol.soundness) <;> rfl

/-- The provers that can be obtained: new basic ones, adapted ones and compositions of any others,
and what any call leaves of one, whatever is drawn. -/
inductive Obtainable : Prover E → Prop
  | leaf {l : Leaf E} {t : Soundness} {P : Protocol E} (h : Protocol.ofLeaf l t = .ok P) :
      Obtainable (ofProtocol P)
  | adapted (c : Conversion E) {p : Prover E} (h : Obtainable p) : Obtainable (.adapted c p)
  | allOf {branches : List (Prover E)} {p : Prover E} (hb : ∀ b ∈ branches, Obtainable b)
      (h : allOf branches = .ok p) : Obtainable p
  | anyOf {branches : List (Prover E)} {p : Prover E} (hb : ∀ b ∈ branches, Obtainable b)
      (h : anyOf branches = .ok p) : Obtainable p
  | called {p : Prover E} (h : Obtainable p) (call : Call E) (draws : (p.step call).Draws) :
      Obtainable ((p.step call).result draws).2

/-- A new prover of a protocol that can be built. -/
theorem Obtainable.ofProtocol {P : Protocol E} (hP : P.Constructible) :
    (Prover.ofProtocol P).Obtainable := by
  induction hP with
  | leaf h => exact .leaf h
  | adapted c _ ih => exact .adapted c ih
  | @allOf bs P _ h ih =>
    have hb : ∀ b ∈ ofProtocols bs, b.Obtainable := by
      rw [ofProtocols_eq_map]
      exact List.forall_mem_map.mpr ih
    exact .allOf hb (by rw [allOf_ofProtocols, h]; rfl)
  | @anyOf bs P _ h ih =>
    have hb : ∀ b ∈ ofProtocols bs, b.Obtainable := by
      rw [ofProtocols_eq_map]
      exact List.forall_mem_map.mpr ih
    exact .anyOf hb (by rw [anyOf_ofProtocols, h]; rfl)

theorem allOf_eq_ok {branches : List (Prover E)} {p : Prover E} :
    allOf branches = .ok p ↔ ∃ t, p = .all t false branches ∧ 1 ≤ branches.length ∧
      ∀ b ∈ branches, b.soundness = t := by
  unfold allOf
  rw [bind_eq_ok]
  refine exists_congr fun t => ?_
  rw [Protocol.sharedSoundness_branches Nat.one_pos, pure_eq_ok, Except.ok.injEq, and_comm,
    @eq_comm _ p]

theorem anyOf_eq_ok {branches : List (Prover E)} {p : Prover E} :
    anyOf branches = .ok p ↔ ∃ t, p = .any t none branches ∧ 2 ≤ branches.length ∧
      ∀ b ∈ branches, b.soundness = t := by
  unfold anyOf
  rw [bind_eq_ok]
  refine exists_congr fun t => ?_
  rw [Protocol.sharedSoundness_branches Nat.two_pos, pure_eq_ok, Except.ok.injEq, and_comm,
    @eq_comm _ p]

/-- What holds of the protocols of branches, from the branches. -/
theorem forall_mem_protocols {bs : List (Prover E)} {φ : Protocol E → Prop} :
    (∀ b ∈ protocols bs, φ b) ↔ ∀ b ∈ bs, φ b.protocol := by
  rw [protocols_eq_map, List.forall_mem_map]

/-- A prover that can be obtained is one of a protocol that can be built, and the challenges that it
keeps have the length that the soundness parameter of the whole asks for. -/
theorem Obtainable.constructible_and_shares {p : Prover E} (h : p.Obtainable) :
    p.protocol.Constructible ∧ p.SharesFit p.soundness := by
  induction h with
  | @leaf l t P h =>
    rw [protocol_ofProtocol]
    exact ⟨.leaf h, ofProtocol_sharesFit P⟩
  | adapted c _ ih => exact ⟨.adapted c ih.1, .adapted c ih.2⟩
  | @allOf bs p _ h ih =>
    obtain ⟨t, rfl, hmin, ht⟩ := allOf_eq_ok.mp h
    refine ⟨Protocol.constructible_all (by rwa [protocols_length]) ?_, ?_⟩
    · exact forall_mem_protocols.mpr fun b hb =>
        ⟨(ih b hb).1, b.soundness_protocol.trans (ht b hb)⟩
    · exact .all t false fun b hb => ht b hb ▸ (ih b hb).2
  | @anyOf bs p _ h ih =>
    obtain ⟨t, rfl, hmin, ht⟩ := anyOf_eq_ok.mp h
    refine ⟨Protocol.constructible_any (by rwa [protocols_length]) ?_, ?_⟩
    · exact forall_mem_protocols.mpr fun b hb =>
        ⟨(ih b hb).1, b.soundness_protocol.trans (ht b hb)⟩
    · exact sharesFit_any_none t fun b hb => ht b hb ▸ (ih b hb).2
  | @called p _ call draws ih =>
    have hfits : p.Fits p.soundness := ⟨p.soundness_protocol ▸ ih.1.uniform, ih.2⟩
    have hprotocol := Sampling.always_iff.mp (p.step_protocol call) draws
    have hleft := Sampling.always_iff.mp (hfits.step call) draws
    generalize ((p.step call).result draws).2 = p' at hprotocol hleft
    -- The parameter is that of the protocol, which a call does not change.
    have ht : p'.soundness = p.soundness := by
      rw [← soundness_protocol, hprotocol, soundness_protocol]
    exact ⟨hprotocol ▸ ih.1, ht ▸ hleft.shares⟩

theorem Obtainable.fits {p : Prover E} (h : p.Obtainable) : p.Fits p.soundness where
  uniform := p.soundness_protocol ▸ h.constructible_and_shares.1.uniform
  shares := h.constructible_and_shares.2

/-- The prover is a part of the other one, or the whole of it. -/
inductive PartOf : Prover E → Prover E → Prop
  | whole (p : Prover E) : PartOf p p
  | adapted (c : Conversion E) {q p : Prover E} (h : PartOf q p) : PartOf q (.adapted c p)
  | all (t : Soundness) (isPending : Bool) {q b : Prover E} {bs : List (Prover E)} (hb : b ∈ bs)
      (h : PartOf q b) : PartOf q (.all t isPending bs)
  | any (t : Soundness) (pending : Option OrPending) {q b : Prover E} {bs : List (Prover E)}
      (hb : b ∈ bs) (h : PartOf q b) : PartOf q (.any t pending bs)

/-- The simulator of a part is a part of the simulator. -/
theorem PartOf.protocol {q p : Prover E} (h : q.PartOf p) : q.protocol.PartOf p.protocol := by
  induction h with
  | whole => exact .whole _
  | adapted c _ ih => exact .adapted c ih
  | all t isPending hb _ ih => exact .all t (mem_protocols hb) ih
  | any t pending hb _ ih => exact .any t (mem_protocols hb) ih

end Prover

/-! ## Verifiers -/

namespace Verifier

/-- The verifiers of all statements, at least one, with a common soundness parameter. -/
def allOf (branches : List (Verifier E)) : Except ConfigError (Verifier E) := do
  return .all (.empty (← sharedSoundness 1 (branches.map soundness))) branches

/-- The verifiers of the statements of which one is to hold, at least two, with a common soundness
parameter. -/
def anyOf (branches : List (Verifier E)) : Except ConfigError (Verifier E) := do
  return .any (.empty (← sharedSoundness 2 (branches.map soundness))) branches

theorem forall_mem_protocols {bs : List (Verifier E)} {φ : Protocol E → Prop} :
    (∀ b ∈ protocols bs, φ b) ↔ ∀ b ∈ bs, φ b.protocol := by
  rw [protocols_eq_map, List.forall_mem_map]

theorem map_soundness_ofProtocols (Ps : List (Protocol E)) :
    (ofProtocols Ps).map soundness = Ps.map Protocol.soundness := by
  rw [ofProtocols_eq_map, List.map_map]
  refine List.map_congr_left fun P _ => ?_
  rw [Function.comp_apply, ← soundness_protocol, protocol_ofProtocol]

/-- A composition of new verifiers is a new verifier of the composition. -/
theorem allOf_ofProtocols (Ps : List (Protocol E)) :
    allOf (ofProtocols Ps) = (Protocol.allOf Ps).map ofProtocol := by
  rw [allOf, Protocol.allOf, map_soundness_ofProtocols]
  cases sharedSoundness 1 (Ps.map Protocol.soundness) <;> rfl

theorem anyOf_ofProtocols (Ps : List (Protocol E)) :
    anyOf (ofProtocols Ps) = (Protocol.anyOf Ps).map ofProtocol := by
  rw [anyOf, Protocol.anyOf, map_soundness_ofProtocols]
  cases sharedSoundness 2 (Ps.map Protocol.soundness) <;> rfl

theorem allOf_eq_ok {branches : List (Verifier E)} {v : Verifier E} :
    allOf branches = .ok v ↔ ∃ t, v = .all (.empty t) branches ∧ 1 ≤ branches.length ∧
      ∀ b ∈ branches, b.soundness = t := by
  unfold allOf
  rw [bind_eq_ok]
  refine exists_congr fun t => ?_
  rw [Protocol.sharedSoundness_branches Nat.one_pos, pure_eq_ok, Except.ok.injEq, and_comm,
    @eq_comm _ v]

theorem anyOf_eq_ok {branches : List (Verifier E)} {v : Verifier E} :
    anyOf branches = .ok v ↔ ∃ t, v = .any (.empty t) branches ∧ 2 ≤ branches.length ∧
      ∀ b ∈ branches, b.soundness = t := by
  unfold anyOf
  rw [bind_eq_ok]
  refine exists_congr fun t => ?_
  rw [Protocol.sharedSoundness_branches Nat.two_pos, pure_eq_ok, Except.ok.injEq, and_comm,
    @eq_comm _ v]

/-- The challenge that is held has the right length. -/
def ChallengeFits (v : Verifier E) : Prop :=
  ∀ c, v.challenge = some c → c.length = v.soundness.byteLength

theorem challengeFits_of_none {v : Verifier E} (h : v.challenge = none) : v.ChallengeFits := by
  intro c hc
  rw [h] at hc
  cases hc

theorem challengeFits_put {v : Verifier E} {c : Bytes} (hc : c.length = v.soundness.byteLength) :
    (v.put c).ChallengeFits := by
  intro c' hc'
  obtain rfl : c = c' := by simpa using hc'
  rw [soundness, put, slot_withSlot]
  exact hc

/-- The verifier is a part of the other one, or the whole of it. -/
inductive PartOf : Verifier E → Verifier E → Prop
  | whole (v : Verifier E) : PartOf v v
  | adapted (c : Conversion E) {w v : Verifier E} (h : PartOf w v) : PartOf w (.adapted c v)
  | all (slot : ChallengeSlot) {w b : Verifier E} {bs : List (Verifier E)} (hb : b ∈ bs)
      (h : PartOf w b) : PartOf w (.all slot bs)
  | any (slot : ChallengeSlot) {w b : Verifier E} {bs : List (Verifier E)} (hb : b ∈ bs)
      (h : PartOf w b) : PartOf w (.any slot bs)

theorem mem_protocols {v : Verifier E} {vs : List (Verifier E)} (h : v ∈ vs) :
    v.protocol ∈ protocols vs := by
  rw [protocols_eq_map]
  exact List.mem_map_of_mem h

theorem PartOf.protocol {w v : Verifier E} (h : w.PartOf v) : w.protocol.PartOf v.protocol := by
  induction h with
  | whole => exact .whole _
  | adapted c _ ih => exact .adapted c ih
  | all slot hb _ ih => exact .all _ (mem_protocols hb) ih
  | any slot hb _ ih => exact .any _ (mem_protocols hb) ih

variable [DecidableEq E]

/-- The verifiers that can be obtained: new basic ones, adapted ones and compositions of any others,
and what any call leaves of one, whatever is drawn. -/
inductive Obtainable : Verifier E → Prop
  | leaf {l : Leaf E} {t : Soundness} {P : Protocol E} (h : Protocol.ofLeaf l t = .ok P) :
      Obtainable (ofProtocol P)
  | adapted (c : Conversion E) {v : Verifier E} (h : Obtainable v) : Obtainable (.adapted c v)
  | allOf {branches : List (Verifier E)} {v : Verifier E} (hb : ∀ b ∈ branches, Obtainable b)
      (h : allOf branches = .ok v) : Obtainable v
  | anyOf {branches : List (Verifier E)} {v : Verifier E} (hb : ∀ b ∈ branches, Obtainable b)
      (h : anyOf branches = .ok v) : Obtainable v
  | called {v : Verifier E} (h : Obtainable v) (call : Call E) (draws : (v.step call).Draws) :
      Obtainable ((v.step call).result draws).2

/-- A new verifier of a protocol that can be built. -/
theorem Obtainable.ofProtocol {P : Protocol E} (hP : P.Constructible) :
    (Verifier.ofProtocol P).Obtainable := by
  induction hP with
  | leaf h => exact .leaf h
  | adapted c _ ih => exact .adapted c ih
  | @allOf bs P _ h ih =>
    have hb : ∀ b ∈ ofProtocols bs, b.Obtainable := by
      rw [ofProtocols_eq_map]
      exact List.forall_mem_map.mpr ih
    exact .allOf hb (by rw [allOf_ofProtocols, h]; rfl)
  | @anyOf bs P _ h ih =>
    have hb : ∀ b ∈ ofProtocols bs, b.Obtainable := by
      rw [ofProtocols_eq_map]
      exact List.forall_mem_map.mpr ih
    exact .anyOf hb (by rw [anyOf_ofProtocols, h]; rfl)

/-- A call leaves a verifier of the same protocol, and the challenge that it holds has the right
length. -/
theorem ChallengeFits.step {v : Verifier E} (h : v.ChallengeFits) (call : Call E) :
    (v.step call).Always fun x => x.2.protocol = v.protocol ∧ x.2.ChallengeFits := by
  cases call with
  | draw =>
    simp only [Verifier.step, drawChallenge, Soundness.drawChallenge, Sampling.always_bind,
      Sampling.always_drawBytes]
    exact fun c hc => ⟨protocol_put v c, challengeFits_put hc⟩
  | keep c =>
    simp only [Verifier.step, keepChallenge]
    by_cases hc : c.length = v.soundness.byteLength
    · rw [requireChallenge_ok hc]
      exact ⟨protocol_put v c, challengeFits_put hc⟩
    · rw [requireChallenge_error hc]
      exact ⟨rfl, h⟩
  | reset => exact ⟨protocol_reset v, challengeFits_of_none (challenge_reset v)⟩
  | verify s first second =>
    exact ⟨protocol_verify v s first second,
      challengeFits_of_none (challenge_verify v s first second)⟩

/-- A verifier that can be obtained is one of a protocol that can be built, and the challenge that
it holds has the right length. -/
theorem Obtainable.constructible_and_challenge {v : Verifier E} (h : v.Obtainable) :
    v.protocol.Constructible ∧ v.ChallengeFits := by
  induction h with
  | @leaf l t P h =>
    rw [protocol_ofProtocol]
    exact ⟨.leaf h, challengeFits_of_none (challenge_ofProtocol P)⟩
  | adapted c _ ih => exact ⟨.adapted c ih.1, ih.2⟩
  | @allOf bs v _ h ih =>
    obtain ⟨t, rfl, hmin, ht⟩ := allOf_eq_ok.mp h
    refine ⟨Protocol.constructible_all (by rwa [protocols_length]) ?_, challengeFits_of_none rfl⟩
    exact forall_mem_protocols.mpr fun b hb => ⟨(ih b hb).1, b.soundness_protocol.trans (ht b hb)⟩
  | @anyOf bs v _ h ih =>
    obtain ⟨t, rfl, hmin, ht⟩ := anyOf_eq_ok.mp h
    refine ⟨Protocol.constructible_any (by rwa [protocols_length]) ?_, challengeFits_of_none rfl⟩
    exact forall_mem_protocols.mpr fun b hb => ⟨(ih b hb).1, b.soundness_protocol.trans (ht b hb)⟩
  | called _ call draws ih =>
    obtain ⟨hprotocol, hleft⟩ := Sampling.always_iff.mp (ih.2.step call) draws
    exact ⟨hprotocol ▸ ih.1, hleft⟩

end Verifier

end SigmaProofs
