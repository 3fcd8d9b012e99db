import SigmaProofs.Proofs.Leaf.Runs
import SigmaProofs.Proofs.Runs

/-!
# How deep the messages of a protocol nest

`Protocol.nesting` counts the compositions that lie inside each other, and a protocol for any number
of bases as one, since its first message has a part for each of them. The first message of an
accepted run nests just as deep, and the second not deeper (`Accepts.nesting`).
-/

namespace SigmaProofs

variable {E : Type}

/-- How deep the messages of a basic protocol nest. -/
def Leaf.nesting : Leaf E → Nat
  | dhExtended _ => 1
  | dlog _ | dhTuple _ | opening _ | encryptedZero | product => 0

namespace Protocol

mutual

/-- How deep the messages of a protocol nest. -/
def nesting : Protocol E → Nat
  | .leaf _ l => l.nesting
  | .adapted _ inner => nesting inner
  | .all _ branches => nestingOfAll branches + 1
  | .any _ branches => nestingOfAll branches + 1

/-- The deepest nesting among several protocols. -/
def nestingOfAll : List (Protocol E) → Nat
  | [] => 0
  | b :: bs => max (nesting b) (nestingOfAll bs)

end

end Protocol

/-! ## Basic protocols -/

namespace Leaf

variable [DecidableEq E]

/-- Commitments that are accepted are group elements. -/
theorem nestingAll_of_accepts {G : PrimeGroup E} {e z : Nat} {bases powers : List E}
    {commitments : List Message} (hlen : bases.length = powers.length)
    (hcount : commitments.length = bases.length)
    (h : DhExtended.accepts G e z bases powers commitments = .ok true) :
    Message.nestingAll commitments = 0 := by
  induction bases generalizing powers commitments with
  | nil =>
    obtain rfl := List.length_eq_zero_iff.mp hcount
    rfl
  | cons base bases ih =>
    obtain _ | ⟨power, powers⟩ := powers
    · simp at hlen
    obtain _ | ⟨commitment, commitments⟩ := commitments
    · simp at hcount
    obtain ⟨⟨a, _, rfl, -⟩, hothers⟩ := DhExtended.accepts_cons.mp h
    rw [Message.nestingAll, ih (by simpa using hlen) (by simpa using hcount) hothers]
    rfl

/-- The messages of an accepted run of a basic protocol. -/
theorem nesting_of_verify {l : Leaf E} {t : Soundness} {c : Bytes} {s : Statement E}
    {first second : Message} (h : l.verify t c s first second = .ok true) :
    first.nesting = l.nesting ∧ second.nesting = 0 := by
  cases l with
  | dlog G =>
    obtain ⟨_, a, z, -, rfl, rfl, -⟩ := verify_dlog.mp h
    exact ⟨rfl, rfl⟩
  | dhTuple G =>
    obtain ⟨_, _, _, a, b, z, -, rfl, rfl, -⟩ := verify_dhTuple.mp h
    exact ⟨rfl, rfl⟩
  | dhExtended G =>
    obtain ⟨_, _, commitments, z, -, rfl, rfl, -, hlen, hcount, hacc⟩ := verify_dhExtended.mp h
    exact ⟨congrArg (· + 1) (nestingAll_of_accepts hlen hcount hacc), rfl⟩
  | opening G =>
    obtain ⟨_, _, a, u, v, -, rfl, rfl, -⟩ := verify_opening.mp h
    exact ⟨rfl, rfl⟩
  | encryptedZero =>
    obtain ⟨_, _, a, z, -, rfl, rfl, -⟩ := verify_encryptedZero.mp h
    exact ⟨rfl, rfl⟩
  | product =>
    obtain ⟨_, _, _, _, a1, a2, z1, z2, z3, -, rfl, rfl, -⟩ := verify_product.mp h
    exact ⟨rfl, rfl⟩

end Leaf

/-! ## Trees -/

namespace Protocol

variable [DecidableEq E]

theorem AcceptsEach.nestingAll {bs : List (Protocol E)} {ss : List (Statement E)}
    {runs : List Conversation} (h : AcceptsEach bs ss runs)
    (hb : ∀ b ∈ bs, ∀ (s : Statement E) (run : Conversation), b.Accepts s run →
      run.first.nesting = b.nesting ∧ run.second.nesting ≤ b.nesting) :
    Message.nestingAll (runs.map (·.first)) = nestingOfAll bs ∧
      Message.nestingAll (runs.map (·.second)) ≤ nestingOfAll bs := by
  induction h with
  | nil => exact ⟨rfl, Nat.le_refl 0⟩
  | @cons b bs s ss run runs hrun _ ih =>
    obtain ⟨hbranch, hothers⟩ := List.forall_mem_cons.mp hb
    obtain ⟨hfirst, hsecond⟩ := hbranch s run hrun
    obtain ⟨hfirsts, hseconds⟩ := ih hothers
    rw [List.map_cons, List.map_cons, Message.nestingAll, Message.nestingAll, nestingOfAll,
      hfirst, hfirsts]
    exact ⟨rfl, max_le_max hsecond hseconds⟩

/-- The first message of an accepted run nests as deep as the protocol says, and the second not
deeper. -/
theorem Accepts.nesting {P : Protocol E} {s : Statement E} {run : Conversation}
    (h : P.Accepts s run) : run.first.nesting = P.nesting ∧ run.second.nesting ≤ P.nesting := by
  induction P generalizing s run with
  | leaf t l =>
    obtain ⟨hfirst, hsecond⟩ := Leaf.nesting_of_verify h.verdict_eq
    exact ⟨hfirst, hsecond ▸ Nat.zero_le _⟩
  | adapted c P ih =>
    obtain ⟨s', -, h⟩ := accepts_adapted_iff.mp h
    exact ih h
  | all t bs ih =>
    obtain ⟨-, ss, runs, -, hrun, h, -⟩ := accepts_all_iff.mp h
    obtain ⟨hfirst, hsecond⟩ := h.nestingAll fun b hb s run => ih b hb
    rw [hrun]
    exact ⟨congrArg (· + 1) hfirst, Nat.succ_le_succ hsecond⟩
  | any t bs ih =>
    obtain ⟨-, ss, runs, -, hrun, h, -⟩ := accepts_any_iff.mp h
    obtain ⟨hfirst, hsecond⟩ := h.nestingAll fun b hb s run => ih b hb
    rw [hrun]
    exact ⟨congrArg (· + 1) hfirst, Nat.succ_le_succ hsecond⟩

end Protocol

end SigmaProofs
