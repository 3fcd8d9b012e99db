import SigmaProofs.Proofs.Steps
import SigmaProofs.Prover

/-!
# The branches of a prover

* `protocols_eq_map`, `resetAll_eq_map`: what a prover does to its branches one after another.
* `commitAt_append`, `respondAt_append`, `resetAt_append`: what the prover of an OR composition does
  to the branch with the witness, when the list of branches is split at its place.
* `OrPending.ownChallenge`: the challenge that the branch with the witness answers.
* `protocol_eq_all`, `protocol_eq_any` and so on: the provers of a protocol.
-/

namespace SigmaProofs

variable {E : Type}

/-- A list is split at the place of one of its elements. -/
theorem exists_append_of_getElem? {α : Type} {l : List α} {i : Nat} {a : α} (h : l[i]? = some a) :
    ∃ before after, l = before ++ a :: after ∧ before.length = i := by
  obtain ⟨hi, rfl⟩ := List.getElem?_eq_some_iff.mp h
  refine ⟨l.take i, l.drop (i + 1), ?_, List.length_take_of_le (Nat.le_of_lt hi)⟩
  rw [List.getElem_cons_drop, List.take_append_drop]

/-- The challenge that the branch with the witness has to answer: the given one, with the shares of
the simulated branches added. -/
def OrPending.ownChallenge (pending : OrPending) (challenge : Bytes) : Bytes :=
  (pending.challenges.eraseIdx pending.index).foldl Bytes.xor challenge

namespace Prover

/-! ## All branches -/

theorem protocols_eq_map (ps : List (Prover E)) : protocols ps = ps.map protocol := by
  induction ps with
  | nil => rfl
  | cons p ps ih => rw [protocols, ih, List.map_cons]

theorem resetAll_eq_map (ps : List (Prover E)) : resetAll ps = ps.map reset := by
  induction ps with
  | nil => rfl
  | cons p ps ih => rw [resetAll, ih, List.map_cons]

theorem ofProtocols_eq_map (Ps : List (Protocol E)) : ofProtocols Ps = Ps.map ofProtocol := by
  induction Ps with
  | nil => rfl
  | cons P Ps ih => rw [ofProtocols, ih, List.map_cons]

@[simp] theorem protocols_length (ps : List (Prover E)) : (protocols ps).length = ps.length := by
  rw [protocols_eq_map, List.length_map]

@[simp] theorem ofProtocols_length (Ps : List (Protocol E)) :
    (ofProtocols Ps).length = Ps.length := by
  rw [ofProtocols_eq_map, List.length_map]

@[simp] theorem resetAll_length (ps : List (Prover E)) : (resetAll ps).length = ps.length := by
  rw [resetAll_eq_map, List.length_map]

theorem protocols_append (ps ps' : List (Prover E)) :
    protocols (ps ++ ps') = protocols ps ++ protocols ps' := by
  rw [protocols_eq_map, protocols_eq_map, protocols_eq_map, List.map_append]

theorem ofProtocols_append (Ps Ps' : List (Protocol E)) :
    ofProtocols (Ps ++ Ps') = ofProtocols Ps ++ ofProtocols Ps' := by
  rw [ofProtocols_eq_map, ofProtocols_eq_map, ofProtocols_eq_map, List.map_append]

theorem mem_protocols {p : Prover E} {ps : List (Prover E)} (h : p ∈ ps) :
    p.protocol ∈ protocols ps := by
  rw [protocols_eq_map]
  exact List.mem_map_of_mem h

variable {ops : ChallengeOps}

theorem respondEach_cons (p : Prover E) (ps : List (Prover E)) (challenge : Bytes) :
    respondEach (p :: ps) challenge ops =
      (do return (← (respond p challenge ops).1) :: (← (respondEach ps challenge ops).1),
        (respond p challenge ops).2 :: (respondEach ps challenge ops).2) :=
  rfl

/-! ## The branch with the witness -/

/-- Only the branch with the witness commits; the others are erased. -/
theorem commitAt_append (before after : List (Prover E)) (p : Prover E) (input : Witnessed E) :
    commitAt (before ++ p :: after) before.length input ops = (do
      let (result, p) ← commit p input ops
      return (result, resetAll before ++ p :: resetAll after)) := by
  induction before with
  | nil => simp only [List.nil_append, List.length_nil, commitAt, resetAll]
  | cons b before ih =>
    rw [List.cons_append, List.length_cons, commitAt, ih, bind_assoc]
    rfl

/-- Only the branch with the witness responds. -/
theorem respondAt_append (before after : List (Prover E)) (p : Prover E) (challenge : Bytes) :
    respondAt (before ++ p :: after) before.length challenge ops =
      ((respond p challenge ops).1, before ++ (respond p challenge ops).2 :: after) := by
  induction before with
  | nil => rfl
  | cons b before ih => rw [List.cons_append, List.length_cons, respondAt, ih]; rfl

/-- The branch with the witness responds to its own challenge. -/
theorem respond_any_pending {t : Soundness} {c : Bytes} (hc : c.length = t.byteLength)
    (pending : OrPending) (bs : List (Prover E)) :
    respond (.any t (some pending) bs) c =
      ((respondAt bs pending.index (pending.ownChallenge c)).1.map
          (pending.complete (pending.ownChallenge c)),
        .any t none (respondAt bs pending.index (pending.ownChallenge c)).2) := by
  simp only [respond, requireChallenge_ok hc, ChallengeOps.addAll_plain, OrPending.ownChallenge]

theorem resetAt_append (before after : List (Prover E)) (p : Prover E) :
    resetAt (before ++ p :: after) before.length = before ++ reset p :: after := by
  induction before with
  | nil => rfl
  | cons b before ih => rw [List.cons_append, List.length_cons, resetAt, ih]; rfl

/-! ## The provers of a protocol -/

theorem protocol_eq_leaf {p : Prover E} {t : Soundness} {l : Leaf E}
    (h : p.protocol = .leaf t l) : ∃ pending, p = .leaf t l pending := by
  cases p <;> cases h
  exact ⟨_, rfl⟩

theorem protocol_eq_adapted {p : Prover E} {c : Conversion E} {P : Protocol E}
    (h : p.protocol = .adapted c P) : ∃ inner, p = .adapted c inner ∧ inner.protocol = P := by
  cases p <;> cases h
  exact ⟨_, rfl, rfl⟩

theorem protocol_eq_all {p : Prover E} {t : Soundness} {bs : List (Protocol E)}
    (h : p.protocol = .all t bs) :
    ∃ isPending branches, p = .all t isPending branches ∧ protocols branches = bs := by
  cases p <;> cases h
  exact ⟨_, _, rfl, rfl⟩

theorem protocol_eq_any {p : Prover E} {t : Soundness} {bs : List (Protocol E)}
    (h : p.protocol = .any t bs) :
    ∃ pending branches, p = .any t pending branches ∧ protocols branches = bs := by
  cases p <;> cases h
  exact ⟨_, _, rfl, rfl⟩

end Prover

end SigmaProofs
