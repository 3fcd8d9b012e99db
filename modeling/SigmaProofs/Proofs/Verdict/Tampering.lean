import SigmaProofs.Proofs.DamgardJurik.Exact
import SigmaProofs.Proofs.Challenge
import SigmaProofs.Proofs.Relation
import SigmaProofs.Proofs.Verdict

/-!
# Accepted OR proofs and their challenges

Nobody can change a challenge of an accepted OR proof without changing the messages with it.

* `FailAlike`: two computations that fail with one error, or both give a result.
* `Protocol.verdict_failAlike`: a challenge decides which verdict there is, not whether there is
  one. By induction over the tree.
* `Verifier.rejects_altered`: with another challenge, or with another share of it in some place, an
  accepted proof is rejected.
-/

namespace SigmaProofs

/-! ## Computations that fail alike -/

/-- Both computations give a result, or both fail with one error. -/
inductive FailAlike {α : Type} : Except ProtocolError α → Except ProtocolError α → Prop
  | ok (a b : α) : FailAlike (.ok a) (.ok b)
  | error (err : ProtocolError) : FailAlike (.error err) (.error err)

namespace FailAlike

variable {α β γ : Type} {x x' : Except ProtocolError α}

theorem refl (x : Except ProtocolError α) : FailAlike x x := by
  cases x with
  | ok a => exact .ok a a
  | error err => exact .error err

/-- A common step, and what follows it. -/
theorem bind {f f' : α → Except ProtocolError β} (h : ∀ a, FailAlike (f a) (f' a)) :
    FailAlike (x >>= f) (x >>= f') := by
  cases x with
  | ok a => exact h a
  | error err => exact .error err

theorem map (h : FailAlike x x') (f f' : α → β) : FailAlike (x.map f) (x'.map f') := by
  cases h with
  | ok a b => exact .ok (f a) (f' b)
  | error err => exact .error err

/-- Two computations, one after another. -/
theorem bind_map {y y' : Except ProtocolError β} (h : FailAlike x x') (h' : FailAlike y y')
    (f : α → β → γ) : FailAlike (x >>= fun a => y.map (f a)) (x' >>= fun a => y'.map (f a)) := by
  cases h with
  | ok a b => exact h'.map (f a) (f b)
  | error err => exact .error err

end FailAlike

variable {E : Type} [DecidableEq E]

/-! ## The challenge does not matter for an error -/

theorem DhExtended.accepts_failAlike (G : PrimeGroup E) (e e' z : Nat) (bases powers : List E)
    (commitments : List Message) : FailAlike (accepts G e z bases powers commitments)
      (accepts G e' z bases powers commitments) := by
  induction bases generalizing powers commitments with
  | nil => exact .ok true true
  | cons base bases ih =>
    obtain _ | ⟨power, powers⟩ := powers
    · exact .ok true true
    obtain _ | ⟨commitment, commitments⟩ := commitments
    · exact .ok true true
    unfold accepts
    refine .bind fun encoding => ?_
    cases G.decode? encoding with
    | none => exact .ok false false
    | some a => exact (ih powers commitments).map _ _

theorem Leaf.verify_failAlike (l : Leaf E) (t : Soundness) (c c' : Bytes) (s : Statement E)
    (first second : Message) :
    FailAlike (l.verify t c s first second) (l.verify t c' s first second) := by
  cases l with
  | dlog G => exact .bind fun h => .bind fun a => .bind fun z => .ok _ _
  | dhTuple G => exact .bind fun tuple => .bind fun commitment => .bind fun z => .ok _ _
  | dhExtended G =>
    refine .bind fun statement => .bind fun commitments => .bind fun z => ?_
    obtain ⟨bases, powers⟩ := statement
    dsimp only
    split
    · exact .ok false false
    · exact DhExtended.accepts_failAlike G _ _ z _ _ commitments
  | opening G => exact .bind fun statement => .bind fun a => .bind fun response => .ok _ _
  | encryptedZero =>
    rw [Leaf.verify_encryptedZero_def, Leaf.verify_encryptedZero_def]
    exact .bind fun input => .ok _ _
  | product =>
    rw [Leaf.verify_product_def, Leaf.verify_product_def]
    exact .bind fun input => .ok _ _

namespace Protocol

/-- The branches of a composition fail alike under challenges of the same lengths. -/
theorem verdictEach_failAlike {bs : List (Protocol E)}
    (h : ∀ b ∈ bs, ∀ (c c' : Bytes), c.length = c'.length → ∀ s first second,
      FailAlike (b.verdict c s first second) (b.verdict c' s first second))
    {cs cs' : List Bytes} (hcs : cs.map List.length = cs'.map List.length)
    (ss : List (Statement E)) (fs zs : List Message) :
    FailAlike (verdictEach bs cs ss fs zs) (verdictEach bs cs' ss fs zs) := by
  induction bs generalizing cs cs' ss fs zs with
  | nil => exact .refl _
  | cons b bs ih =>
    obtain _ | ⟨c, cs⟩ := cs
    · obtain rfl := List.map_eq_nil_iff.mp hcs.symm
      exact .refl _
    obtain _ | ⟨c', cs'⟩ := cs'
    · simp at hcs
    obtain ⟨hc, hcs⟩ := List.cons.inj hcs
    obtain _ | ⟨s, ss⟩ := ss
    · exact .refl _
    obtain _ | ⟨f, fs⟩ := fs
    · exact .refl _
    obtain _ | ⟨z, zs⟩ := zs
    · exact .refl _
    obtain ⟨hb, hbs⟩ := List.forall_mem_cons.mp h
    have hreq : b.soundness.requireChallenge c = b.soundness.requireChallenge c' := by
      rw [Soundness.requireChallenge, Soundness.requireChallenge, hc]
    rw [verdictEach, verdictEach, hreq]
    exact .bind fun _ => (hb c c' hc s f z).bind_map (ih hbs hcs ss fs zs) _

/-- Under challenges of one length, a protocol fails with one error, or gives a verdict. -/
theorem verdict_failAlike (P : Protocol E) {c c' : Bytes} (hc : c.length = c'.length)
    (s : Statement E) (first second : Message) :
    FailAlike (P.verdict c s first second) (P.verdict c' s first second) := by
  induction P generalizing c c' s first second with
  | leaf t l => exact l.verify_failAlike t c c' s first second
  | adapted conversion P ih => exact .bind fun s' => ih hc s' first second
  | all t bs ih =>
    unfold verdict
    refine .bind fun ss => .bind fun _ => .bind fun messages => ?_
    obtain _ | ⟨fs, zs⟩ := messages
    · exact .ok false false
    · exact verdictEach_failAlike (fun b hb c c' hc => ih b hb hc) (by simp [hc]) ss fs zs
  | any t bs ih =>
    unfold verdict
    rw [hc]
    refine .bind fun ss => .bind fun _ => .bind fun messages => ?_
    obtain _ | ⟨fs, cs, zs⟩ := messages
    · exact .ok false false
    · exact (FailAlike.refl _).map _ _

/-! ## Other challenges and shares -/

/-- The shares of an accepted proof add up to no other challenge. -/
theorem verdict_any_challenge {t : Soundness} {bs : List (Protocol E)} {c c' : Bytes}
    {s : Statement E} {first second : Message}
    (h : (Protocol.any t bs).verdict c s first second = .ok true) (hc : c'.length = c.length)
    (hne : c' ≠ c) : (Protocol.any t bs).verdict c' s first second = .ok false := by
  obtain ⟨ss, fs, cs, zs, rfl, rfl, rfl, hss, hfs, hcs, hzs, hlengths, hsum, heach⟩ :=
    verdict_any_eq_true.mp h
  have hsum' : Verifier.sharesAddUp c' cs = false := by
    rw [← Bool.not_eq_true, sharesAddUp_iff, hc, sharesAddUp_iff.mp hsum]
    exact hne.symm
  rw [verdict_any_messages hss, if_pos ⟨hfs, hcs, hzs, hc ▸ hlengths⟩, heach, hsum']
  rfl

/-- With another share, the proof is rejected: for its length, or for the sum, since the branches
still give verdicts. -/
theorem verdict_any_share {t : Soundness} {bs : List (Protocol E)} {c : Bytes}
    {s : Statement E} {first : Message} {cs : List Bytes} {zs : List Message}
    (h : (Protocol.any t bs).verdict c s first (.orResponse cs zs) = .ok true) {i : Nat}
    (hi : i < cs.length) {share : Bytes} (hne : share ≠ cs[i]) :
    (Protocol.any t bs).verdict c s first (.orResponse (cs.set i share) zs) = .ok false := by
  obtain ⟨ss, fs, _, _, rfl, rfl, hresponse, hss, hfs, hcs, hzs, hlengths, hsum, heach⟩ :=
    verdict_any_eq_true.mp h
  obtain ⟨rfl, rfl⟩ := Message.orResponse.inj hresponse
  rw [verdict_any_messages hss]
  -- A share of another length is refused before any branch is asked.
  by_cases hshare : share.length = c.length
  · have hlengths' : ∀ x ∈ cs.set i share, x.length = c.length := by
      intro x hx
      rcases List.mem_or_eq_of_mem_set hx with hx | rfl
      · exact hlengths x hx
      · exact hshare
    have hsum' : Verifier.sharesAddUp c (cs.set i share) = false := by
      rw [← Bool.not_eq_true, sharesAddUp_iff]
      intro hsum'
      exact hne (Bytes.eq_of_sum_set hlengths hi hshare
        (hsum'.trans (sharesAddUp_iff.mp hsum).symm))
    have hsame : cs.map List.length = (cs.set i share).map List.length := by
      rw [List.map_eq_replicate_iff.mpr hlengths, List.map_eq_replicate_iff.mpr hlengths',
        List.length_set]
    have halike : FailAlike (verdictEach bs cs ss fs zs)
        (verdictEach bs (cs.set i share) ss fs zs) :=
      verdictEach_failAlike (fun b _ c c' hc => b.verdict_failAlike hc) hsame ss fs zs
    rw [heach] at halike
    rw [if_pos ⟨hfs, by simpa using hcs, hzs, hlengths'⟩, hsum']
    generalize verdictEach bs (cs.set i share) ss fs zs = result at halike
    cases halike with
    | ok _ accepted => rfl
  · rw [if_neg]
    rintro ⟨-, -, -, hlengths'⟩
    exact hshare (hlengths' share (List.mem_set hi share))

end Protocol

/-! ## Verifiers -/

/-- An OR proof that was accepted is rejected with any other challenge of the right length, and with
any other byte string in place of one of the shares. The verifiers are in any state. -/
theorem Verifier.rejects_altered {t : Soundness} {bs : List (Protocol E)} {v v' : Verifier E}
    (hv : v.protocol = .any t bs) (hv' : v'.protocol = .any t bs) {c : Bytes} {s : Statement E}
    {first second : Message} (h : v.Accepts c s first second) :
    (∀ c' : Bytes, c'.length = t.byteLength → c' ≠ c → v'.Rejects c' s first second) ∧
    ∃ cs zs, second = .orResponse cs zs ∧ cs.length = bs.length ∧
      ∀ (i : Nat) (hi : i < cs.length) (share : Bytes), share ≠ cs[i] →
        v'.Rejects c s first (.orResponse (cs.set i share) zs) := by
  obtain ⟨hlen, hverdict⟩ := accepts_iff.mp h
  rw [hv] at hlen hverdict
  constructor
  · intro c' hlen' hne
    rw [rejects_iff, hv']
    exact ⟨hlen', Protocol.verdict_any_challenge hverdict (hlen'.trans hlen.symm) hne⟩
  · obtain ⟨ss, fs, cs, zs, -, -, rfl, -, -, hcs, -⟩ := Protocol.verdict_any_eq_true.mp hverdict
    refine ⟨cs, zs, rfl, hcs, fun i hi share hne => ?_⟩
    rw [rejects_iff, hv']
    exact ⟨hlen, Protocol.verdict_any_share hverdict hi hne⟩

/-- The first statement is proved by a simulated run, and no other share than `1` will do for it. -/
theorem Verifier.rejects_altered_smallTree :
    let v := ofProtocol Protocol.smallTree
    let first := Message.multiple
      [.elementPair [0, 1] [0, 4], .multiple [.element [0, 1], .element [0, 1]]]
    let second := Message.orResponse [[1], [4]] [.integer 1, .multiple [.integer 12, .integer 20]]
    v.Accepts [5] Protocol.smallStatement first second ∧
      v.Rejects [6] Protocol.smallStatement first second ∧
      ∀ share : Bytes, share ≠ [1] → v.Rejects [5] Protocol.smallStatement first
        (.orResponse [share, [4]] [.integer 1, .multiple [.integer 12, .integer 20]]) := by
  intro v first second
  have hv : v.protocol = Protocol.smallTree := protocol_ofProtocol _
  have hacc : v.Accepts [5] Protocol.smallStatement first second := by
    rw [accepts_iff, hv]
    exact ⟨rfl, by decide +kernel⟩
  obtain ⟨hchallenge, cs, zs, hsecond, -, hshare⟩ := rejects_altered hv hv hacc
  obtain ⟨rfl, rfl⟩ := Message.orResponse.inj hsecond
  exact ⟨hacc, hchallenge [6] rfl (by decide), fun share hne => hshare 0 (by decide) share hne⟩

end SigmaProofs
