import SigmaProofs.DebugText
import SigmaProofs.Proofs.Json.Scalars
import SigmaProofs.Proofs.Prover.Branches
import SigmaProofs.Proofs.Relation
import SigmaProofs.Sampling.ByteStream

/-!
# What the texts of pending compositions tell

A prover of a composition may be written to a log between its two messages. Its text tells whether
there was a first message, and of an OR composition also which branch has the witness: what is kept
of the simulated branches is shown in full, and with it the index of the other one.

* `OrPending.index_eq_of_debugText`: the index can be read off the text.
* `Prover.commit_all_shown`, `Prover.commit_any_shown`: the prover that a first message leaves, as
  far as its text shows it.
* `Prover.debugText_after_commit_iff`: of two inputs for one statement, on one stream of random
  bytes, the texts are equal exactly if they tell the same. No value of a witness is shown.
* `Prover.debugText_tells_branch`: two witnesses of one statement that are told apart.
-/

namespace SigmaProofs

variable {E : Type}

/-! ## Records in a text -/

theorem Json.decimal_inj_of_endsNumber {i j : Nat} {rest rest' : List Char} (h : EndsNumber rest)
    (h' : EndsNumber rest') (heq : decimal i ++ rest = decimal j ++ rest') : i = j := by
  have hspan := congrArg spanDigits heq
  rw [spanDigits_decimal i h, spanDigits_decimal j h'] at hspan
  rw [← ofDecimal_decimal i, ← ofDecimal_decimal j, (Prod.mk.inj hspan).1]

namespace DebugText

theorem option_inj {x y : Option String} : option x = option y ↔ x = y := by
  refine ⟨fun h => ?_, congrArg option⟩
  cases x with
  | none =>
    cases y with
    | none => rfl
    | some y => simpa [option] using congrArg String.toList h
  | some x =>
    cases y with
    | none => simpa [option] using congrArg String.toList h
    | some y => simpa [option] using h

theorem fields_three (name : String) (f g h : String × String) : fields name [f, g, h] =
    name ++ " \x7b " ++ f.1 ++ ": " ++ f.2 ++ ", " ++ g.1 ++ ": " ++ g.2 ++ ", " ++ h.1 ++ ": " ++
      h.2 ++ " \x7d" := by
  simp [fields, String.intercalate_cons_cons, String.append_assoc]

/-- Records that differ in the value of their last field only. -/
theorem fields_last_inj {name : String} {f g : String × String} {field x y : String} :
    fields name [f, g, (field, x)] = fields name [f, g, (field, y)] ↔ x = y := by
  simp [fields_three]

end DebugText

open DebugText

/-- The index of the branch with the witness can be read off the text. -/
theorem OrPending.index_eq_of_debugText {a b : OrPending} (h : a.debugText = b.debugText) :
    a.index = b.index := by
  have hchars := congrArg String.toList h
  simp only [OrPending.debugText, fields_three, String.toList_append, List.append_assoc,
    Nat.toString_eq_repr, Nat.toList_repr, List.append_cancel_left_eq] at hchars
  have hcomma : ∀ rest, Json.EndsItem (',' :: rest) := fun rest => ⟨',', rest, rfl, .inl rfl⟩
  exact Json.decimal_inj_of_endsNumber (hcomma _).endsNumber (hcomma _).endsNumber hchars

/-! ## What a first message leaves -/

namespace Prover

theorem commitEach_length (ps : List (Prover E)) (ss : List (Statement E)) (ws : List Witness)
    (stream : ByteStream) : ((commitEach ps ss ws).run stream).1.2.length = ps.length := by
  induction ps generalizing ss ws stream with
  | nil => rfl
  | cons p ps ih =>
    obtain _ | ⟨s, ss⟩ := ss
    · rfl
    obtain _ | ⟨w, ws⟩ := ws
    · rfl
    rw [commitEach, Sampling.run_bind]
    split
    · rfl
    · rw [Sampling.run_bind]
      exact congrArg (· + 1) (ih _ _ _)

theorem commitAt_length (ps : List (Prover E)) (i : Nat) (input : Witnessed E)
    (stream : ByteStream) : ((commitAt ps i input).run stream).1.2.length = ps.length := by
  induction ps generalizing i stream with
  | nil => rfl
  | cons p ps ih =>
    cases i with
    | zero =>
      rw [commitAt, Sampling.run_bind]
      exact congrArg (· + 1) (resetAll_length ps)
    | succ i =>
      rw [commitAt, Sampling.run_bind]
      exact congrArg (· + 1) (ih i stream)

/-- What a first message of an AND composition gives, and the prover that it leaves. -/
inductive AllShown (t : Soundness) (count : Nat) : Except ProtocolError Message × Prover E → Prop
  | failed (err : ProtocolError) {bs : List (Prover E)} (hlen : bs.length = count) :
      AllShown t count (.error err, .all t false bs)
  | committed (first : Message) {bs : List (Prover E)} (hlen : bs.length = count) :
      AllShown t count (.ok first, .all t true bs)

theorem commit_all_shown (t : Soundness) (isPending : Bool) (bs : List (Prover E))
    (input : Witnessed E) (stream : ByteStream) :
    AllShown t bs.length (((all t isPending bs).commit input).run stream).1 := by
  unfold commit
  split
  · exact .failed _ (resetAll_length bs)
  · rename_i ss ws hinput
    have hlen := commitEach_length bs ss ws stream
    rw [Sampling.run_bind]
    generalize ((commitEach bs ss ws).run stream).1 = result at hlen
    obtain ⟨_ | firsts, bs'⟩ := result
    · exact .failed _ ((resetAll_length bs').trans hlen)
    · exact .committed _ hlen

/-- What a first message of an OR composition gives, and the prover that it leaves. The simulated
runs depend on the statement, the random values, and the index of the branch with the witness. -/
inductive AnyShown (t : Soundness) (bs : List (Prover E)) (input : Witnessed E)
    (stream : ByteStream) : Except ProtocolError Message × Prover E → Prop
  | failed (err : ProtocolError) {bs' : List (Prover E)} (hlen : bs'.length = bs.length) :
      AnyShown t bs input stream (.error err, .any t none bs')
  | committed (first : Message) {ss : List (Statement E)} {index : Nat} {w : Witness}
      {runs : List (Option Conversation)} {bs' : List (Prover E)}
      (hstatement : input.statement = .any ss) (hwitness : input.witness = .any index w)
      (hruns : ((simulateOthers bs ss index).run stream).1 = .ok runs)
      (hlen : bs'.length = bs.length) :
      AnyShown t bs input stream (.ok first, .any t (some (orPending index runs)) bs')

/-- The input of an OR composition consists of one statement for each branch and of a witness for
one of them. -/
theorem input_of_any {count index : Nat} {input known : Witnessed E}
    {statements : List (Statement E)}
    (h : (do
      let statements ← input.statement.expectAny
      checkArity count statements.length
      let (index, witness) ← input.witness.expectAny
      match statements[index]? with
      | some statement => return (statements, index, (⟨statement, witness⟩ : Witnessed E))
      | none => .error (.invalidInput .witnessIndexOutOfBounds)) =
        Except.ok (statements, index, known)) :
    input.statement = .any statements ∧ ∃ w, input.witness = .any index w := by
  obtain ⟨ss, hstatement, h⟩ := bind_eq_ok.mp h
  obtain ⟨_, -, h⟩ := bind_eq_ok.mp h
  obtain ⟨⟨i, w⟩, hwitness, h⟩ := bind_eq_ok.mp h
  cases hget : ss[i]? with
  | none => simp [hget] at h
  | some s =>
    simp only [hget, pure_eq_ok, Except.ok.injEq, Prod.mk.injEq] at h
    obtain ⟨rfl, rfl, -⟩ := h
    exact ⟨Statement.expectAny_eq_ok.mp hstatement, w, Witness.expectAny_eq_ok.mp hwitness⟩

theorem commit_any_shown (t : Soundness) (pending : Option OrPending) (bs : List (Prover E))
    (input : Witnessed E) (stream : ByteStream) :
    AnyShown t bs input stream (((any t pending bs).commit input).run stream).1 := by
  unfold commit
  split
  · exact .failed _ (resetAll_length bs)
  · rename_i ss index known hinput
    obtain ⟨hstatement, w, hwitness⟩ := input_of_any hinput
    rw [Sampling.run_bind]
    generalize hsimulated : (simulateOthers bs ss index).run stream = simulated
    obtain ⟨_ | runs, stream'⟩ := simulated
    · exact .failed _ (resetAll_length bs)
    · have hlen := commitAt_length bs index known stream'
      simp only [Sampling.run_bind]
      generalize ((commitAt bs index known).run stream').1 = result at hlen
      obtain ⟨_ | first, bs'⟩ := result
      · exact .failed _ hlen
      · exact .committed _ hstatement hwitness (by rw [hsimulated]) hlen

/-! ## What the text tells -/

/-- The text of the prover after a first message, or after a failed attempt at one. -/
def textAfter (p : Prover E) (input : Witnessed E) (stream : ByteStream) : Option String :=
  ((p.commit input).run stream).1.2.debugText?

/-- The branch of an OR composition for which there is a witness. -/
def branch? : Prover E → Witness → Option Nat
  | any .., .any index _ => some index
  | _, _ => none

/-- Whether there was a first message, and if so, the branch of an OR composition for which there
is a witness. -/
def toldAfter (p : Prover E) (input : Witnessed E) (stream : ByteStream) : Option (Option Nat) :=
  match ((p.commit input).run stream).1.1 with
  | .ok _ => some (p.branch? input.witness)
  | .error _ => none

theorem debugText?_all {t : Soundness} {isPending isPending' : Bool} {bs bs' : List (Prover E)}
    (hlen : bs.length = bs'.length) :
    debugText? (.all t isPending bs) = debugText? (.all t isPending' bs') ↔
      isPending = isPending' := by
  simp only [debugText?, hlen, Option.some.injEq, fields_last_inj]
  cases isPending <;> cases isPending' <;> decide

theorem debugText?_any {t : Soundness} {pending pending' : Option OrPending}
    {bs bs' : List (Prover E)} (hlen : bs.length = bs'.length) :
    debugText? (.any t pending bs) = debugText? (.any t pending' bs') ↔
      pending.map OrPending.debugText = pending'.map OrPending.debugText := by
  simp only [debugText?, hlen, Option.some.injEq, fields_last_inj, option_inj]

theorem textAfter_all_iff {t : Soundness} {isPending : Bool} {bs : List (Prover E)}
    {input input' : Witnessed E} (stream : ByteStream) :
    (all t isPending bs).textAfter input stream = (all t isPending bs).textAfter input' stream ↔
      (all t isPending bs).toldAfter input stream = (all t isPending bs).toldAfter input' stream := by
  unfold textAfter toldAfter
  have h := commit_all_shown t isPending bs input stream
  have h' := commit_all_shown t isPending bs input' stream
  generalize (((all t isPending bs).commit input).run stream).1 = result at h
  generalize (((all t isPending bs).commit input').run stream).1 = result' at h'
  cases h with
  | failed err hlen =>
    cases h' with
    | failed err' hlen' => simp [debugText?_all (hlen.trans hlen'.symm)]
    | committed first' hlen' => simp [debugText?_all (hlen.trans hlen'.symm)]
  | committed first hlen =>
    cases h' with
    | failed err' hlen' => simp [debugText?_all (hlen.trans hlen'.symm)]
    | committed first' hlen' => simp [debugText?_all (hlen.trans hlen'.symm), branch?]

theorem textAfter_any_iff {t : Soundness} {pending : Option OrPending} {bs : List (Prover E)}
    {input input' : Witnessed E} (hs : input.statement = input'.statement) (stream : ByteStream) :
    (any t pending bs).textAfter input stream = (any t pending bs).textAfter input' stream ↔
      (any t pending bs).toldAfter input stream = (any t pending bs).toldAfter input' stream := by
  unfold textAfter toldAfter
  have h := commit_any_shown t pending bs input stream
  have h' := commit_any_shown t pending bs input' stream
  generalize (((any t pending bs).commit input).run stream).1 = result at h
  generalize (((any t pending bs).commit input').run stream).1 = result' at h'
  cases h with
  | failed err hlen =>
    cases h' with
    | failed err' hlen' => simp [debugText?_any (hlen.trans hlen'.symm)]
    | committed first' _ _ _ hlen' => simp [debugText?_any (hlen.trans hlen'.symm)]
  | @committed first ss index w runs _ hstatement hwitness hruns hlen =>
    cases h' with
    | failed err' hlen' => simp [debugText?_any (hlen.trans hlen'.symm)]
    | @committed first' ss' index' w' runs' _ hstatement' hwitness' hruns' hlen' =>
      obtain rfl : ss = ss' := by
        rw [hstatement, hstatement'] at hs
        exact Statement.any.inj hs
      simp only [debugText?_any (hlen.trans hlen'.symm), hwitness, hwitness', branch?,
        Option.map_some, Option.some.injEq]
      constructor
      · intro h
        exact OrPending.index_eq_of_debugText h
      · rintro rfl
        rw [hruns] at hruns'
        rw [Except.ok.inj hruns']

/-- Two inputs for one statement give texts that differ exactly in what the texts tell: whether
there was a first message, and the branch with the witness. Everything else in them depends on the
statement and the random values only. -/
theorem debugText_after_commit_iff {p : Prover E} (hp : p.debugText?.isSome = true)
    {input input' : Witnessed E} (hs : input.statement = input'.statement) (stream : ByteStream) :
    p.textAfter input stream = p.textAfter input' stream ↔
      p.toldAfter input stream = p.toldAfter input' stream := by
  cases p with
  | leaf => simp [debugText?] at hp
  | adapted => simp [debugText?] at hp
  | all t isPending bs => exact textAfter_all_iff stream
  | any t pending bs => exact textAfter_any_iff hs stream

/-! ## A branch that is told -/

/-- A proof that one of two exponents is known. -/
def twinChoice : Protocol Nat :=
  let G := SchnorrGroup.small.toPrimeGroup
  .any Protocol.smallSoundness [.leaf Protocol.smallSoundness (.dlog G),
    .leaf Protocol.smallSoundness (.dlog G)]

/-- A statement both parts of which are true for the exponent 3. -/
def twinStatement : Statement Nat := .any [.dlog 64, .dlog 64]

/-- A stream that repeats one byte, so that any two runs on it draw the same. -/
def constantStream : ByteStream := ⟨fun _ => 1, 0⟩

theorem toldAfter_twin (index x : Nat) (h : index = 0 ∨ index = 1) :
    (ofProtocol twinChoice).toldAfter ⟨twinStatement, .any index (.exponent x)⟩ constantStream =
      some (some index) := by
  rcases h with rfl | rfl
  · rfl
  · rfl

/-- A wrong exponent for the same branch gives the same text. -/
theorem debugText_after_commit_iff_twin :
    (ofProtocol twinChoice).textAfter ⟨twinStatement, .any 1 (.exponent 3)⟩ constantStream =
      (ofProtocol twinChoice).textAfter ⟨twinStatement, .any 1 (.exponent 4)⟩ constantStream :=
  (debugText_after_commit_iff rfl rfl constantStream).mpr
    ((toldAfter_twin 1 3 (.inr rfl)).trans (toldAfter_twin 1 4 (.inr rfl)).symm)

/-- Both branches of the statement have the same witness, and the text tells which of them it is
used for. -/
theorem debugText_tells_branch :
    (twinChoice.Proves twinStatement (.any 0 (.exponent 3)) ∧
      twinChoice.Proves twinStatement (.any 1 (.exponent 3))) ∧
    (ofProtocol twinChoice).textAfter ⟨twinStatement, .any 0 (.exponent 3)⟩ constantStream ≠
      (ofProtocol twinChoice).textAfter ⟨twinStatement, .any 1 (.exponent 3)⟩ constantStream := by
  have hpow : 64 = SchnorrGroup.small.pow 4 3 := by decide +kernel
  refine ⟨⟨.any rfl rfl rfl (.leaf (.leaf (.dlog hpow))),
    .any rfl rfl rfl (.leaf (.leaf (.dlog hpow)))⟩, fun htext => ?_⟩
  have h0 := toldAfter_twin 0 3 (.inl rfl)
  have h1 := toldAfter_twin 1 3 (.inr rfl)
  rw [twinChoice, ofProtocol] at htext h0 h1
  have htold := (textAfter_any_iff (by rfl) constantStream).mp htext
  cases h0.symm.trans (htold.trans h1)

end Prover

end SigmaProofs
