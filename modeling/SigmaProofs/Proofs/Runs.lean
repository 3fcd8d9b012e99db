import SigmaProofs.Proofs.Challenge
import SigmaProofs.Proofs.Verdict

/-!
# Accepted runs of a tree

* `Protocol.Accepts`: a run with a challenge of the right length and a positive verdict. A verifier
  accepts just these, in whatever state it is (`verifier_accepts_iff`).
* `accepts_adapted_iff`: an accepted run of an adapted protocol is one for the converted statement.
* `accepts_all_iff`: an accepted run of an AND composition is made of accepted runs of all its
  branches, each with the challenge of the whole.
* `accepts_any_iff`: so it is for an OR composition, but the challenges of the branches only have
  to add up to the challenge of the whole.
-/

namespace SigmaProofs.Protocol

variable {E : Type} [DecidableEq E]

/-- The run is accepted as a proof of the statement. -/
structure Accepts (P : Protocol E) (s : Statement E) (run : Conversation) : Prop where
  length_eq : run.challenge.length = P.soundness.byteLength
  verdict_eq : P.verdict run.challenge s run.first run.second = .ok true

/-- A verifier of the protocol accepts the messages of accepted runs under their challenge. -/
theorem verifier_accepts_iff {P : Protocol E} {v : Verifier E} (hv : v.protocol = P)
    {s : Statement E} {c : Bytes} {first second : Message} :
    v.Accepts c s first second ↔ P.Accepts s ⟨first, c, second⟩ := by
  rw [Verifier.accepts_iff, hv]
  constructor
  · rintro ⟨hlen, hverdict⟩
    exact ⟨hlen, hverdict⟩
  · rintro ⟨hlen, hverdict⟩
    exact ⟨hlen, hverdict⟩

/-- Several runs are accepted, each by its own protocol as a proof of its own statement. -/
inductive AcceptsEach : List (Protocol E) → List (Statement E) → List Conversation → Prop
  | nil : AcceptsEach [] [] []
  | cons {b : Protocol E} {bs : List (Protocol E)} {s : Statement E} {ss : List (Statement E)}
      {run : Conversation} {runs : List Conversation} (h : b.Accepts s run)
      (hs : AcceptsEach bs ss runs) : AcceptsEach (b :: bs) (s :: ss) (run :: runs)

namespace AcceptsEach

variable {bs : List (Protocol E)} {ss : List (Statement E)} {runs : List Conversation}

theorem length_statements (h : AcceptsEach bs ss runs) : ss.length = bs.length := by
  induction h with
  | nil => rfl
  | cons _ _ ih => rw [List.length_cons, List.length_cons, ih]

theorem length_runs (h : AcceptsEach bs ss runs) : runs.length = bs.length := by
  induction h with
  | nil => rfl
  | cons _ _ ih => rw [List.length_cons, List.length_cons, ih]

/-- Accepted runs of the branches before, at and after a place. -/
theorem append {b : Protocol E} {bs' : List (Protocol E)} {s : Statement E}
    {ss' : List (Statement E)} {run : Conversation} {runs' : List Conversation}
    (h : AcceptsEach bs ss runs) (hb : b.Accepts s run) (h' : AcceptsEach bs' ss' runs') :
    AcceptsEach (bs ++ b :: bs') (ss ++ s :: ss') (runs ++ run :: runs') := by
  induction h with
  | nil => exact .cons hb h'
  | cons hr _ ih => exact .cons hr ih

theorem forall_length (h : AcceptsEach bs ss runs) {t : Soundness}
    (ht : ∀ b ∈ bs, b.soundness = t) : ∀ run ∈ runs, run.challenge.length = t.byteLength := by
  induction h with
  | nil => simp
  | cons hr _ ih =>
    obtain ⟨hb, hbs⟩ := List.forall_mem_cons.mp ht
    exact List.forall_mem_cons.mpr ⟨hb ▸ hr.length_eq, ih hbs⟩

end AcceptsEach

/-- The verdicts on the branches, for messages and challenges that come from runs. -/
theorem acceptsEach_iff {bs : List (Protocol E)} {ss : List (Statement E)}
    {runs : List Conversation} (hss : ss.length = bs.length) (hruns : runs.length = bs.length) :
    AcceptsEach bs ss runs ↔ verdictEach bs (runs.map (·.challenge)) ss (runs.map (·.first))
      (runs.map (·.second)) = .ok true := by
  induction bs generalizing ss runs with
  | nil =>
    obtain rfl := List.length_eq_zero_iff.mp hss
    obtain rfl := List.length_eq_zero_iff.mp hruns
    exact ⟨fun _ => rfl, fun _ => .nil⟩
  | cons b bs ih =>
    obtain _ | ⟨s, ss⟩ := ss
    · simp at hss
    obtain _ | ⟨run, runs⟩ := runs
    · simp at hruns
    rw [List.map_cons, List.map_cons, List.map_cons, verdictEach_cons,
      ← ih (by simpa using hss) (by simpa using hruns)]
    constructor
    · rintro (_ | ⟨h, hs⟩)
      exact ⟨h.length_eq, h.verdict_eq, hs⟩
    · rintro ⟨hlen, hv, hs⟩
      exact .cons ⟨hlen, hv⟩ hs

omit [DecidableEq E] in
/-- As many first messages, challenges and second messages are those of runs. -/
theorem exists_runs {fs zs : List Message} {cs : List Bytes} (hcs : cs.length = fs.length)
    (hzs : zs.length = fs.length) : ∃ runs : List Conversation, runs.map (·.first) = fs ∧
      runs.map (·.challenge) = cs ∧ runs.map (·.second) = zs := by
  induction fs generalizing cs zs with
  | nil =>
    obtain rfl := List.length_eq_zero_iff.mp hcs
    obtain rfl := List.length_eq_zero_iff.mp hzs
    exact ⟨[], rfl, rfl, rfl⟩
  | cons f fs ih =>
    obtain _ | ⟨c, cs⟩ := cs
    · simp at hcs
    obtain _ | ⟨z, zs⟩ := zs
    · simp at hzs
    obtain ⟨runs, rfl, rfl, rfl⟩ := ih (by simpa using hcs) (by simpa using hzs)
    exact ⟨⟨f, c, z⟩ :: runs, rfl, rfl, rfl⟩

/-! ## Adapted protocols and compositions -/

theorem accepts_adapted_iff {c : Conversion E} {P : Protocol E} {s : Statement E}
    {run : Conversation} : (Protocol.adapted c P).Accepts s run ↔
      ∃ s', c.apply s = .ok s' ∧ P.Accepts s' run := by
  constructor
  · rintro ⟨hlen, hv⟩
    obtain ⟨s', hs, hv'⟩ := bind_eq_ok.mp hv
    exact ⟨s', asProtocolError_eq_ok.mp hs, hlen, hv'⟩
  · rintro ⟨s', hs, hlen, hv⟩
    exact ⟨hlen, bind_eq_ok.mpr ⟨s', asProtocolError_eq_ok.mpr hs, hv⟩⟩

theorem accepts_all_iff {t : Soundness} {bs : List (Protocol E)} {s : Statement E}
    {run : Conversation} : (Protocol.all t bs).Accepts s run ↔
      run.challenge.length = t.byteLength ∧ ∃ ss runs, s = .all ss ∧
        run = gatherAll run.challenge runs ∧ AcceptsEach bs ss runs ∧
        ∀ r ∈ runs, r.challenge = run.challenge := by
  obtain ⟨first, c, second⟩ := run
  constructor
  · rintro ⟨hlen, hv⟩
    obtain ⟨ss, fs, zs, rfl, rfl, rfl, hss, hfs, hzs, h⟩ := verdict_all_eq_true.mp hv
    have hcount : (List.replicate ss.length c).length = fs.length := by
      rw [List.length_replicate, hfs, hss]
    obtain ⟨runs, rfl, hcs, rfl⟩ := exists_runs hcount (hzs.trans hfs.symm)
    rw [List.length_map] at hfs
    rw [← hcs] at h
    refine ⟨hlen, ss, runs, rfl, rfl, (acceptsEach_iff hss.symm hfs).mpr h, fun r hr => ?_⟩
    have hmem : r.challenge ∈ List.replicate ss.length c := hcs ▸ List.mem_map_of_mem hr
    exact List.eq_of_mem_replicate hmem
  · rintro ⟨hlen, ss, runs, rfl, hrun, h, hc⟩
    obtain ⟨rfl, -, rfl⟩ := Conversation.mk.inj hrun
    have hcs : runs.map (·.challenge) = List.replicate ss.length c := by
      rw [List.eq_replicate_iff, List.length_map, h.length_runs, h.length_statements]
      refine ⟨rfl, fun x hx => ?_⟩
      obtain ⟨r, hr, rfl⟩ := List.mem_map.mp hx
      exact hc r hr
    refine ⟨hlen, verdict_all_eq_true.mpr ⟨ss, _, _, rfl, rfl, rfl, h.length_statements.symm,
      by rw [List.length_map, h.length_runs], by rw [List.length_map, h.length_runs], ?_⟩⟩
    rw [← hcs]
    exact (acceptsEach_iff h.length_statements h.length_runs).mp h

theorem accepts_any_iff {t : Soundness} {bs : List (Protocol E)} {s : Statement E}
    {run : Conversation} : (Protocol.any t bs).Accepts s run ↔
      run.challenge.length = t.byteLength ∧ ∃ ss runs, s = .any ss ∧
        run = gatherAny run.challenge runs ∧ AcceptsEach bs ss runs ∧
        (∀ r ∈ runs, r.challenge.length = run.challenge.length) ∧
        Verifier.sharesAddUp run.challenge (runs.map (·.challenge)) = true := by
  obtain ⟨first, c, second⟩ := run
  constructor
  · rintro ⟨hlen, hv⟩
    obtain ⟨ss, fs, cs, zs, rfl, rfl, rfl, hss, hfs, hcs, hzs, hk, hsum, h⟩ :=
      verdict_any_eq_true.mp hv
    obtain ⟨runs, rfl, rfl, rfl⟩ := exists_runs (hcs.trans hfs.symm) (hzs.trans hfs.symm)
    rw [List.length_map] at hfs
    exact ⟨hlen, ss, runs, rfl, rfl, (acceptsEach_iff hss.symm hfs).mpr h,
      fun r hr => hk _ (List.mem_map_of_mem hr), hsum⟩
  · rintro ⟨hlen, ss, runs, rfl, hrun, h, hk, hsum⟩
    obtain ⟨rfl, -, rfl⟩ := Conversation.mk.inj hrun
    have hruns : ∀ {α : Type} (f : Conversation → α), (runs.map f).length = bs.length := by
      intro α f
      rw [List.length_map, h.length_runs]
    refine ⟨hlen, verdict_any_eq_true.mpr ⟨ss, _, _, _, rfl, rfl, rfl, h.length_statements.symm,
      hruns _, hruns _, hruns _, fun x hx => ?_, hsum,
      (acceptsEach_iff h.length_statements h.length_runs).mp h⟩⟩
    obtain ⟨r, hr, rfl⟩ := List.mem_map.mp hx
    exact hk r hr

end SigmaProofs.Protocol
