import SigmaProofs.Proofs.CiphertextSoundness
import SigmaProofs.Proofs.Indistinguishability

/-!
# Real and simulated runs coincide

The simulator of a basic protocol draws the response and solves for the first message. For a true
statement it draws just the responses that a prover with a witness can send, each for one choice of
what the prover draws, and it gives the run of the prover.

* `Leaf.responseDraws`: a response as the values that the simulator draws. In each simulated run
  they are what was drawn (`Leaf.simulate_drawn`).
* `Leaf.Coincide`: the runs of a prover and of a simulator are the same, draw by draw.
* `Prover.converse_coincides`: so it is for all basic protocols, statements, witnesses and
  challenges.
-/

namespace SigmaProofs

variable {E : Type}

namespace Leaf

/-- A response, as the values that the simulator draws for it. -/
def responseDraws : Leaf E → Statement E → Message → List Sampling.Drawn
  | dlog G, _, .integer z | dhTuple G, _, .integer z | dhExtended G, _, .integer z =>
    [⟨.below G.order, z⟩]
  | opening G, _, .opening u v => [⟨.below G.order, u⟩, ⟨.below G.order, v⟩]
  | encryptedZero, .djZero key _, .integer z => [⟨.unit key.n, z⟩]
  | product, .djProduct key _ _ _, .productResponse z1 z2 z3 =>
    [⟨.below key.plaintextModulus, z1⟩, ⟨.unit key.n, z2⟩, ⟨.unit key.n, z3⟩]
  | _, _, _ => []

/-- What the simulator draws is its response. -/
theorem simulateMessages_drawn {l : Leaf E} {t : Soundness} {s : Statement E}
    (hs : l.Suits t s) (e : Nat) :
    (l.simulateMessages t s e).AlwaysDrawn fun result answers =>
      ∃ first second, result = .ok (first, second) ∧ answers = l.responseDraws s second := by
  cases hs with
  | dlog hh => exact fun z _ => ⟨_, _, rfl, rfl⟩
  | dhTuple hh hu hv => exact fun z _ => ⟨_, _, rfl, rfl⟩
  | dhExtended hne hlen hb hp =>
    simp only [simulateMessages, Statement.expectDhExtended_eq_ok.mpr ⟨rfl, hne, hlen⟩]
    exact fun z _ => ⟨_, _, rfl, rfl⟩
  | opening hh hc => exact fun u _ v _ => ⟨_, _, rfl, rfl⟩
  | encryptedZero hkey hc =>
    rw [simulateMessages_encryptedZero hkey]
    intro z hz
    obtain ⟨a, hsim, -⟩ := EncryptedZero.accepts_simulate hc hz.2.2 e
    exact ⟨_, .integer z, by rw [hsim]; rfl, rfl⟩
  | product hkey h1 h2 h3 =>
    rw [simulateMessages_product hkey]
    intro z1 _ z2 hz2 z3 hz3
    obtain ⟨a1, a2, hsim, -⟩ := Product.accepts_simulate h1 h2 h3 hz2.2.2 hz3.2.2 e z1
    exact ⟨_, .productResponse z1 z2 z3, by rw [hsim]; rfl, rfl⟩

/-- What the simulator draws is the response of the run that it gives. -/
theorem simulate_drawn {l : Leaf E} {t : Soundness} {s : Statement E} {c : Bytes}
    (hs : l.Suits t s) (hc : c.length = t.byteLength) :
    (l.simulate t s c).AlwaysDrawn fun result answers =>
      ∃ run, result = .ok run ∧ answers = l.responseDraws s run.second := by
  simp only [simulate, requireChallenge_ok hc]
  refine (simulateMessages_drawn hs (challengeNumber c)).bind ?_
  rintro _ _ ⟨first, second, rfl, rfl⟩
  exact ⟨_, rfl, List.append_nil _⟩

/-- The runs of a prover coincide with those of a simulator. The response takes what the prover
draws one to one to what the simulator draws, from the same ranges, and with these draws the
simulator gives the run of the prover. -/
def Coincide (l : Leaf E) (s : Statement E)
    (real simulated : Sampling (Except ProtocolError Conversation)) : Prop :=
  ∃ run : real.Draws → Conversation, (∀ d, real.result d = .ok (run d)) ∧
    Set.BijOn (fun d => l.responseDraws s (run d).second) Set.univ (Set.range simulated.drawn) ∧
    ∀ d, simulated.replay (l.responseDraws s (run d).second) = some (.ok (run d)) ∧
      ((l.responseDraws s (run d).second).map fun x => x.1).Perm (real.requests d)

/-- Runs coincide if they are coupled, and what the simulator draws can be read off its response. -/
theorem coincide_of_coupled {l : Leaf E} {s : Statement E}
    {real simulated : Sampling (Except ProtocolError Conversation)}
    (h : Sampling.Coupled (fun a b => ∃ run, a = .ok run ∧ b = .ok run) real simulated)
    (hdrawn : simulated.AlwaysDrawn fun result answers =>
      ∃ run, result = .ok run ∧ answers = l.responseDraws s run.second) :
    l.Coincide s real simulated := by
  obtain ⟨f, hf⟩ := h
  choose run hreal hsimulated using fun d => (hf d).1
  -- the coupling takes what the prover draws to its response
  have hresponse : ∀ d, simulated.drawn (f d) = l.responseDraws s (run d).second := by
    intro d
    obtain ⟨run', hrun', heq⟩ := Sampling.alwaysDrawn_iff.mp hdrawn (f d)
    rw [heq, Except.ok.inj ((hsimulated d).symm.trans hrun')]
  refine ⟨run, hreal, ⟨?_, ?_, ?_⟩, fun d => ⟨?_, ?_⟩⟩
  · exact fun d _ => ⟨f d, hresponse d⟩
  · intro d _ d' _ heq
    have hdraws := (hresponse d).trans (heq.trans (hresponse d').symm)
    exact f.injective (simulated.drawn_injective hdraws)
  · rintro _ ⟨d, rfl⟩
    refine ⟨f.symm d, trivial, (hresponse (f.symm d)).symm.trans ?_⟩
    rw [f.apply_symm_apply]
  · rw [← hresponse d, simulated.replay_drawn, hsimulated]
  · rw [← hresponse d, simulated.map_fst_drawn]
    exact (hf d).2

end Leaf

/-- A prover of a basic protocol with a witness and its simulator make the same runs. -/
theorem Protocol.coupled_converse_leaf {t : Soundness} {l : Leaf E} {s : Statement E} {w : Witness}
    (hG : ∀ G ∈ l.group?.toList, G.Lawful) (hs : l.Suits t s) (hw : l.Relates s w) {p : Prover E}
    (hp : p.protocol = .leaf t l) {c : Bytes} (hc : c.length = t.byteLength) :
    Sampling.Coupled (fun real simulated => ∃ run, real = .ok run ∧ simulated = .ok run)
      (p.converse ⟨s, w⟩ c) (l.simulate t s c) := by
  rw [← bind_pure (l.simulate t s c)]
  refine (coupled_leaf hG hs hw hp hc).bind ?_
  rintro ⟨_, p'⟩ _ ⟨first, second, rfl, hrespond, rfl⟩
  exact Sampling.coupled_pure ⟨⟨first, c, second⟩, congrArg (Except.map _) hrespond, rfl⟩

/-- For a true statement with a valid witness, the runs of the prover of a basic protocol coincide
with those of its simulator, for every challenge. -/
theorem Prover.converse_coincides {t : Soundness} {l : Leaf E} {s : Statement E} {w : Witness}
    (hG : ∀ G ∈ l.group?.toList, G.Lawful) (hs : l.Suits t s) (hw : l.Relates s w) {p : Prover E}
    (hp : p.protocol = .leaf t l) {c : Bytes} (hc : c.length = t.byteLength) :
    l.Coincide s (p.converse ⟨s, w⟩ c) ((Protocol.leaf t l).simulateWith s c) :=
  Leaf.coincide_of_coupled (Protocol.coupled_converse_leaf hG hs hw hp hc)
    (Leaf.simulate_drawn hs hc)

/-! ### A small product -/

namespace Protocol

theorem smallProduct_suits : Leaf.product.Suits smallSoundness smallProduct :=
  have hone : (1 : Nat).Coprime smallKey.n := Nat.coprime_one_left _
  .product (by decide) (DamgardJurik.Key.encrypt_coprime 3 hone)
    (DamgardJurik.Key.encrypt_coprime 5 hone) (DamgardJurik.Key.encrypt_coprime 15 hone)

theorem smallProduct_relates : Leaf.product.Relates smallProduct (.djProduct 3 1 1 1) := by
  have hencrypts : ∀ x, smallKey.Encrypts (smallKey.encrypt x 1) x 1 := fun x =>
    Nat.mod_eq_of_lt (DamgardJurik.Key.encrypt_lt x 1)
  exact .product (hencrypts 3) (hencrypts 5) (hencrypts 15)

end Protocol

open Protocol in
theorem Prover.converse_coincides_smallProduct :
    Leaf.product.Coincide smallProduct
      ((ofProtocol (djProduct smallSoundness)).converse ⟨smallProduct, .djProduct 3 1 1 1⟩ [7])
      ((Protocol.leaf smallSoundness .product).simulateWith smallProduct [7]) :=
  converse_coincides (by simp [Leaf.group?]) smallProduct_suits smallProduct_relates
    (protocol_ofProtocol _) rfl

end SigmaProofs
