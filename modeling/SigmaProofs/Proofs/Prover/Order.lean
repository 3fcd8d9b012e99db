import SigmaProofs.Proofs.Prover.Phases

/-!
# Only responses come too early

A call may be refused because it comes too early or too late. Among the operations of a prover, this
happens to a response that was asked for before a first message. A first message is given or fails
for its input, in every part of the tree and whatever is drawn.

* `Protocol.simulateWith_inOrder`: a simulator is never out of order.
* `Prover.commit_inOrder`: nor is a first message.
-/

namespace SigmaProofs

variable {E α β : Type}

/-- The call was not refused for the moment at which it came. -/
def InOrder (result : Except ProtocolError α) : Prop :=
  ∀ misuse, result ≠ .error (.illegalState misuse)

theorem inOrder_ok (a : α) : InOrder (.ok a) := by rintro _ ⟨⟩

theorem inOrder_config (err : ConfigError) : InOrder (.error (.config err) : Except _ α) := by
  rintro _ ⟨⟩

theorem inOrder_deviation (fault : Deviation) :
    InOrder (.error (.deviation fault) : Except _ α) := by
  rintro _ ⟨⟩

theorem inOrder_communication (transfer : Transfer) (err : ChannelError) :
    InOrder (.error (.communication transfer err) : Except _ α) := by
  rintro _ ⟨⟩

theorem InOrder.error {err : ProtocolError} (h : InOrder (.error err : Except _ α)) :
    InOrder (.error err : Except _ β) := by
  rintro misuse ⟨⟩
  exact h misuse rfl

theorem InOrder.map {result : Except ProtocolError α} (h : InOrder result) (f : α → β) :
    InOrder (result.map f) := by
  cases result with
  | error err => exact h.error
  | ok a => exact inOrder_ok _

/-- A computation that goes on with a result, or stops with the error. -/
theorem always_bind_inOrder {c : Sampling (Except ProtocolError α)}
    {f : Except ProtocolError α → Sampling β} {P : β → Prop} (hc : c.Always InOrder)
    (herror : ∀ err, InOrder (.error err : Except _ α) → (f (.error err)).Always P)
    (hok : ∀ a, (f (.ok a)).Always P) : (c >>= f).Always P := by
  rw [Sampling.always_bind]
  refine hc.mono ?_
  rintro (err | a) h
  · exact herror err h
  · exact hok a

/-! ## Simulators -/

theorem Leaf.simulate_inOrder (l : Leaf E) (t : Soundness) (s : Statement E) (c : Bytes) :
    (l.simulate t s c).Always InOrder := by
  rw [simulate]
  split
  · exact inOrder_deviation _
  · rw [Sampling.always_bind]
    refine Sampling.always_of_forall ?_
    rintro (err | ⟨first, second⟩)
    · exact inOrder_config err
    · exact inOrder_ok _

namespace Protocol

theorem simulateEach_inOrder {bs : List (Protocol E)}
    (h : ∀ b ∈ bs, ∀ s c, (b.simulateWith s c).Always InOrder) (ss : List (Statement E))
    (cs : List Bytes) : (simulateEach bs ss cs).Always InOrder := by
  induction bs generalizing ss cs with
  | nil => exact inOrder_ok _
  | cons b bs ih =>
    obtain ⟨hb, hbs⟩ := List.forall_mem_cons.mp h
    obtain _ | ⟨s, ss⟩ := ss
    · exact inOrder_ok _
    obtain _ | ⟨c, cs⟩ := cs
    · exact inOrder_ok _
    rw [simulateEach]
    refine always_bind_inOrder (hb s c) (fun _ h => h.error) fun run => ?_
    exact always_bind_inOrder (ih hbs ss cs) (fun _ h => h) fun runs => inOrder_ok _

theorem simulateWith_inOrder (P : Protocol E) (s : Statement E) (c : Bytes) :
    (P.simulateWith s c).Always InOrder := by
  induction P generalizing s c with
  | leaf t l => exact l.simulate_inOrder t s c
  | adapted conversion P ih =>
    unfold simulateWith
    split
    · exact inOrder_config _
    · exact ih _ c
  | all t bs ih =>
    unfold simulateWith
    split
    · exact inOrder_deviation _
    split
    · exact inOrder_config _
    · rw [Sampling.always_bind]
      exact (simulateEach_inOrder ih _ _).mono fun runs hruns => hruns.map _
  | any t bs ih =>
    unfold simulateWith
    split
    · exact inOrder_deviation _
    split
    · exact inOrder_config _
    · simp only [ChallengeOps.addAll_plain, Sampling.always_bind]
      refine Sampling.always_of_forall fun drawn => ?_
      exact (simulateEach_inOrder ih _ _).mono fun runs hruns => hruns.map _

theorem simulate_inOrder (P : Protocol E) (s : Statement E) : (P.simulate s).Always InOrder := by
  rw [simulate, Sampling.always_bind]
  exact Sampling.always_of_forall fun c => P.simulateWith_inOrder s c

end Protocol

/-! ## First messages -/

namespace Prover

theorem simulateFrom_inOrder (ps : List (Prover E)) (ss : List (Statement E)) :
    (simulateOthers.simulateFrom ps ss).Always InOrder := by
  induction ps generalizing ss with
  | nil => exact inOrder_ok _
  | cons p ps ih =>
    obtain _ | ⟨s, ss⟩ := ss
    · exact inOrder_ok _
    rw [simulateOthers.simulateFrom]
    refine always_bind_inOrder (p.protocol.simulate_inOrder s) (fun _ h => h.error) fun run => ?_
    exact always_bind_inOrder (ih ss) (fun _ h => h) fun runs => inOrder_ok _

theorem simulateOthers_inOrder (ps : List (Prover E)) (ss : List (Statement E)) (i : Nat) :
    (simulateOthers ps ss i).Always InOrder := by
  induction ps generalizing ss i with
  | nil => cases i <;> exact inOrder_ok _
  | cons p ps ih =>
    obtain _ | ⟨s, ss⟩ := ss
    · cases i <;> exact inOrder_ok _
    cases i with
    | zero =>
      rw [simulateOthers]
      exact always_bind_inOrder (simulateFrom_inOrder ps ss) (fun _ h => h) fun runs =>
        inOrder_ok _
    | succ i =>
      rw [simulateOthers]
      refine always_bind_inOrder (p.protocol.simulate_inOrder s) (fun _ h => h.error) fun run => ?_
      exact always_bind_inOrder (ih ss i) (fun _ h => h) fun runs => inOrder_ok _

theorem commitEach_inOrder {ps : List (Prover E)}
    (h : ∀ p ∈ ps, ∀ input, (p.commit input).Always fun x => InOrder x.1)
    (ss : List (Statement E)) (ws : List Witness) :
    (commitEach ps ss ws).Always fun x => InOrder x.1 := by
  induction ps generalizing ss ws with
  | nil => exact inOrder_ok _
  | cons p ps ih =>
    obtain ⟨hp, hps⟩ := List.forall_mem_cons.mp h
    obtain _ | ⟨s, ss⟩ := ss
    · exact inOrder_ok _
    obtain _ | ⟨w, ws⟩ := ws
    · exact inOrder_ok _
    simp only [commitEach, Sampling.always_bind]
    refine (hp ⟨s, w⟩).mono ?_
    rintro ⟨err | first, p'⟩ hfirst
    · exact hfirst.error
    · rw [Sampling.always_bind]
      exact (ih hps ss ws).mono fun x hx => hx.map _

/-- The branch with the witness is there, so that it commits. -/
theorem commitAt_inOrder {ps : List (Prover E)} {i : Nat} (hi : i < ps.length)
    (h : ∀ p ∈ ps, ∀ input, (p.commit input).Always fun x => InOrder x.1) (input : Witnessed E) :
    (commitAt ps i input).Always fun x => InOrder x.1 := by
  obtain ⟨p, hp⟩ : ∃ p, ps[i]? = some p := ⟨_, List.getElem?_eq_getElem hi⟩
  obtain ⟨before, after, rfl, rfl⟩ := exists_append_of_getElem? hp
  rw [commitAt_append, Sampling.always_bind]
  exact (h p (by simp) input).mono fun x hx => hx

/-- A first message is not refused for the moment at which it comes. -/
theorem commit_inOrder (p : Prover E) (input : Witnessed E) :
    (p.commit input).Always fun x => InOrder x.1 := by
  induction p generalizing input with
  | leaf t l pending =>
    simp only [commit, Sampling.always_bind]
    refine Sampling.always_of_forall ?_
    rintro (err | ⟨pending, first⟩)
    · exact inOrder_config err
    · exact inOrder_ok first
  | adapted conversion p ih =>
    unfold commit
    split
    · exact inOrder_config _
    · rw [Sampling.always_bind]
      exact (ih _).mono fun x hx => hx
  | all t isPending bs ih =>
    unfold commit
    split
    · exact inOrder_config _
    · simp only [Sampling.always_bind]
      refine (commitEach_inOrder ih _ _).mono ?_
      rintro ⟨err | firsts, bs'⟩ hfirsts
      · exact hfirsts.error
      · exact inOrder_ok _
  | any t pending bs ih =>
    unfold commit
    split
    · exact inOrder_config _
    · rename_i ss index known hinput
      refine always_bind_inOrder (simulateOthers_inOrder bs ss index) (fun _ h => h.error)
        fun runs => ?_
      simp only [Sampling.always_bind]
      refine (commitAt_inOrder (index_lt_of_input hinput) ih known).mono ?_
      rintro ⟨err | first, bs'⟩ hfirst
      · exact hfirst.error
      · exact inOrder_ok _

end Prover

end SigmaProofs
