import SigmaProofs.Proofs.Leaf.Runs
import SigmaProofs.Proofs.Verdict

/-!
# What messages can lead to

The messages of the other party may be anything. On a statement that fits its protocol, a verifier
either gives a verdict or reports that a message has another form than the expected one.

* `Protocol.Fits`: the statements for which there is a verdict. They have the shape of the protocol,
  and their keys are long enough; elements and ciphertexts are any values.
* `Protocol.Legible`: every message that is looked at has the expected form.
* `Protocol.Flawed`: some count, some length of a challenge or some encoding of an element is wrong.
* `Protocol.Fits.judges`: there is a verdict if the messages are legible, and a mismatch of forms
  otherwise. By induction over the tree, in which all parts have one soundness parameter.
* `Protocol.Flawed.not_accepted`: flawed messages are not accepted.
-/

namespace SigmaProofs

variable {E : Type}

/-! ## Statements that fit -/

/-- The statements that a basic protocol can judge. -/
inductive Leaf.Fits (t : Soundness) : Leaf E → Statement E → Prop
  | dlog (G : PrimeGroup E) (h : E) : Fits t (.dlog G) (.dlog h)
  | dhTuple (G : PrimeGroup E) (h u v : E) : Fits t (.dhTuple G) (.dhTuple h u v)
  | dhExtended (G : PrimeGroup E) {bases powers : List E} (hne : bases ≠ [])
      (hlen : bases.length = powers.length) : Fits t (.dhExtended G) (.dhExtended bases powers)
  | opening (G : PrimeGroup E) (h c : E) : Fits t (.opening G) (.pedersenKnowledge h c)
  | encryptedZero {key : DamgardJurik.Key} (hkey : 3 * t.bits < bitLength key.n) (c : Nat) :
      Fits t .encryptedZero (.djZero key c)
  | product {key : DamgardJurik.Key} (hkey : 3 * t.bits < bitLength key.n) (c1 c2 c3 : Nat) :
      Fits t .product (.djProduct key c1 c2 c3)

namespace Protocol

/-- The statements that a protocol can judge. -/
inductive Fits : Protocol E → Statement E → Prop
  | leaf {t : Soundness} {l : Leaf E} {s : Statement E} (h : l.Fits t s) : Fits (.leaf t l) s
  | pedersenValue (t : Soundness) (G G' : PrimeGroup E) (h c : E) (x : Nat) :
      Fits (.adapted (.pedersenValue G) (.leaf t (.dlog G'))) (.pedersenValue h c x)
  | elGamalKnowledge (t : Soundness) (G : PrimeGroup E) (h : E) :
      Fits (.adapted .elGamalKnowledge (.leaf t (.dlog G))) (.elGamalKnowledge h)
  | elGamalCommitted (t : Soundness) (G G' : PrimeGroup E) (h c1 c2 m : E) :
      Fits (.adapted (.elGamalValue G) (.leaf t (.dhTuple G'))) (.elGamalCommitted h c1 c2 m)
  | elGamalEncrypted (t : Soundness) (G G' : PrimeGroup E) (h c1 c2 m : E)
      (secret : ElGamalSecret) :
      Fits (.adapted (.elGamalValue G) (.leaf t (.dhTuple G')))
        (.elGamalEncrypted h c1 c2 m secret)
  | djValue {t : Soundness} {key : DamgardJurik.Key} (hkey : 3 * t.bits < bitLength key.n)
      (c x : Nat) : Fits (.adapted .djValue (.leaf t .encryptedZero)) (.djValue key c x)
  | all {t : Soundness} {bs : List (Protocol E)} {ss : List (Statement E)}
      (hlen : bs.length = ss.length) (h : ∀ x ∈ bs.zip ss, Fits x.1 x.2) :
      Fits (.all t bs) (.all ss)
  | any {t : Soundness} {bs : List (Protocol E)} {ss : List (Statement E)}
      (hlen : bs.length = ss.length) (h : ∀ x ∈ bs.zip ss, Fits x.1 x.2) :
      Fits (.any t bs) (.any ss)

/-- A conversion does not fail on a statement that fits, and gives one that fits. -/
theorem Fits.apply {c : Conversion E} {P : Protocol E} {s : Statement E}
    (h : Fits (.adapted c P) s) : ∃ s', c.apply s = .ok s' ∧ P.Fits s' := by
  cases h with
  | pedersenValue => exact ⟨_, rfl, .leaf (.dlog _ _)⟩
  | elGamalKnowledge => exact ⟨_, rfl, .leaf (.dlog _ _)⟩
  | elGamalCommitted => exact ⟨_, rfl, .leaf (.dhTuple _ _ _ _)⟩
  | elGamalEncrypted t G G' h c1 c2 m secret =>
    cases secret with
    | randomness => exact ⟨_, rfl, .leaf (.dhTuple _ _ _ _)⟩
    | privateKey => exact ⟨_, rfl, .leaf (.dhTuple _ _ _ _)⟩
  | djValue hkey => exact ⟨_, rfl, .leaf (.encryptedZero hkey _)⟩

/-- The statements that a protocol can be run on can be judged. -/
theorem Suits.fits {P : Protocol E} {s : Statement E} (h : P.Suits s) : P.Fits s := by
  induction h with
  | leaf h =>
    refine .leaf ?_
    cases h with
    | dlog => exact .dlog _ _
    | dhTuple => exact .dhTuple _ _ _ _
    | dhExtended hne hlen => exact .dhExtended _ hne hlen
    | opening => exact .opening _ _ _
    | encryptedZero hkey => exact .encryptedZero (DamgardJurik.Key.requireLength_eq_ok.mp hkey) _
    | product hkey => exact .product (DamgardJurik.Key.requireLength_eq_ok.mp hkey) _ _ _
  | pedersenValue => exact .pedersenValue _ _ _ _ _ _
  | elGamalKnowledge => exact .elGamalKnowledge _ _ _
  | elGamalCommitted => exact .elGamalCommitted _ _ _ _ _ _ _
  | elGamalEncrypted => exact .elGamalEncrypted _ _ _ _ _ _ _ _
  | djValue hkey => exact .djValue (DamgardJurik.Key.requireLength_eq_ok.mp hkey) _ _
  | all hlen _ ih => exact .all hlen ih
  | any hlen _ ih => exact .any hlen ih

end Protocol

/-! ## Messages that can be read -/

/-- The commitments are encoded elements, up to the first that cannot be decoded. -/
inductive DhExtended.Legible (G : PrimeGroup E) : List Message → Prop
  | nil : Legible G []
  | undecodable {a : Bytes} (ha : G.decode? a = none) (rest : List Message) :
      Legible G (.element a :: rest)
  | decodable {a : Bytes} {x : E} {rest : List Message} (ha : G.decode? a = some x)
      (h : Legible G rest) : Legible G (.element a :: rest)

/-- The messages have the forms that a basic protocol expects. -/
inductive Leaf.Legible : Leaf E → Statement E → Message → Message → Prop
  | dlog (G : PrimeGroup E) (s : Statement E) (a : Bytes) (z : Nat) :
      Legible (.dlog G) s (.element a) (.integer z)
  | dhTuple (G : PrimeGroup E) (s : Statement E) (a b : Bytes) (z : Nat) :
      Legible (.dhTuple G) s (.elementPair a b) (.integer z)
  /-- The commitments are looked at if there is one for each base. -/
  | dhExtended {G : PrimeGroup E} {bases powers : List E} {commitments : List Message}
      (h : commitments.length = bases.length → DhExtended.Legible G commitments) (z : Nat) :
      Legible (.dhExtended G) (.dhExtended bases powers) (.multiple commitments) (.integer z)
  | opening (G : PrimeGroup E) (s : Statement E) (a : Bytes) (u v : Nat) :
      Legible (.opening G) s (.element a) (.opening u v)
  | encryptedZero (s : Statement E) (a z : Nat) :
      Legible .encryptedZero s (.integer a) (.integer z)
  | product (s : Statement E) (a1 a2 z1 z2 z3 : Nat) :
      Legible .product s (.productCommitment a1 a2) (.productResponse z1 z2 z3)

/-- The messages have the forms that a protocol expects. Those of branches are looked at if there
are as many as branches, and if all challenges have the right length. -/
inductive Protocol.Legible : Protocol E → Statement E → Message → Message → Prop
  | leaf {t : Soundness} {l : Leaf E} {s : Statement E} {first second : Message}
      (h : l.Legible s first second) : Legible (.leaf t l) s first second
  | adapted {c : Conversion E} {P : Protocol E} {s s' : Statement E} {first second : Message}
      (hs : c.apply s = .ok s') (h : Legible P s' first second) :
      Legible (.adapted c P) s first second
  | all {t : Soundness} {bs : List (Protocol E)} {ss : List (Statement E)}
      {fs zs : List Message} (h : fs.length = bs.length ∧ zs.length = bs.length →
        ∀ x ∈ bs.zip (ss.zip (fs.zip zs)), Legible x.1 x.2.1 x.2.2.1 x.2.2.2) :
      Legible (.all t bs) (.all ss) (.multiple fs) (.multiple zs)
  | any {t : Soundness} {bs : List (Protocol E)} {ss : List (Statement E)}
      {fs zs : List Message} {cs : List Bytes}
      (h : fs.length = bs.length ∧ cs.length = bs.length ∧ zs.length = bs.length ∧
        (∀ c ∈ cs, c.length = t.byteLength) →
        ∀ x ∈ bs.zip (ss.zip (fs.zip zs)), Legible x.1 x.2.1 x.2.2.1 x.2.2.2) :
      Legible (.any t bs) (.any ss) (.multiple fs) (.orResponse cs zs)

/-! ## Messages that cannot be right -/

/-- An encoding cannot be decoded, or there is not one commitment for each base. -/
inductive Leaf.Flawed : Leaf E → Statement E → Message → Prop
  | dlog {G : PrimeGroup E} {a : Bytes} (ha : G.decode? a = none) (s : Statement E) :
      Flawed (.dlog G) s (.element a)
  | dhTuple {G : PrimeGroup E} {a b : Bytes} (hab : G.decode? a = none ∨ G.decode? b = none)
      (s : Statement E) : Flawed (.dhTuple G) s (.elementPair a b)
  | count {G : PrimeGroup E} {bases powers : List E} {commitments : List Message}
      (h : commitments.length ≠ bases.length) :
      Flawed (.dhExtended G) (.dhExtended bases powers) (.multiple commitments)
  | commitment {G : PrimeGroup E} {a : Bytes} {commitments : List Message}
      (h : .element a ∈ commitments) (ha : G.decode? a = none) (s : Statement E) :
      Flawed (.dhExtended G) s (.multiple commitments)
  | opening {G : PrimeGroup E} {a : Bytes} (ha : G.decode? a = none) (s : Statement E) :
      Flawed (.opening G) s (.element a)

/-- There is not one message or challenge for each branch, a challenge has a wrong length, or the
messages of a branch are flawed. -/
inductive Protocol.Flawed : Protocol E → Statement E → Message → Message → Prop
  | leaf {t : Soundness} {l : Leaf E} {s : Statement E} {first : Message}
      (h : l.Flawed s first) (second : Message) : Flawed (.leaf t l) s first second
  | adapted {c : Conversion E} {P : Protocol E} {s s' : Statement E} {first second : Message}
      (hs : c.apply s = .ok s') (h : Flawed P s' first second) :
      Flawed (.adapted c P) s first second
  | all_count {t : Soundness} {bs : List (Protocol E)} {fs zs : List Message}
      (h : fs.length ≠ bs.length ∨ zs.length ≠ bs.length) (s : Statement E) :
      Flawed (.all t bs) s (.multiple fs) (.multiple zs)
  | all_branch {t : Soundness} {bs : List (Protocol E)} {ss : List (Statement E)}
      {fs zs : List Message} {x : Protocol E × Statement E × Message × Message}
      (hx : x ∈ bs.zip (ss.zip (fs.zip zs))) (h : Flawed x.1 x.2.1 x.2.2.1 x.2.2.2) :
      Flawed (.all t bs) (.all ss) (.multiple fs) (.multiple zs)
  | any_count {t : Soundness} {bs : List (Protocol E)} {fs zs : List Message} {cs : List Bytes}
      (h : fs.length ≠ bs.length ∨ cs.length ≠ bs.length ∨ zs.length ≠ bs.length)
      (s : Statement E) : Flawed (.any t bs) s (.multiple fs) (.orResponse cs zs)
  | any_challenge {t : Soundness} {bs : List (Protocol E)} {fs zs : List Message}
      {c : Bytes} {cs : List Bytes} (hc : c ∈ cs) (h : c.length ≠ t.byteLength)
      (s : Statement E) : Flawed (.any t bs) s (.multiple fs) (.orResponse cs zs)
  | any_branch {t : Soundness} {bs : List (Protocol E)} {ss : List (Statement E)}
      {fs zs : List Message} {cs : List Bytes} {x : Protocol E × Statement E × Message × Message}
      (hx : x ∈ bs.zip (ss.zip (fs.zip zs))) (h : Flawed x.1 x.2.1 x.2.2.1 x.2.2.2) :
      Flawed (.any t bs) (.any ss) (.multiple fs) (.orResponse cs zs)

/-! ## Verdicts and mismatches -/

/-- The computation gives a result if `Q` holds, and reports a mismatch of messages otherwise. -/
inductive MismatchUnless {α : Type} (Q : Prop) : Except ProtocolError α → Prop
  | ok (h : Q) (a : α) : MismatchUnless Q (.ok a)
  | mismatch (h : ¬ Q) (expected actual : String) :
      MismatchUnless Q (.error (.messageMismatch expected actual))

namespace MismatchUnless

variable {α β : Type} {Q Q' : Prop} {x : Except ProtocolError α}

theorem congr (h : MismatchUnless Q x) (hQ : Q ↔ Q') : MismatchUnless Q' x := by
  rwa [← hQ]

theorem map (h : MismatchUnless Q x) (f : α → β) : MismatchUnless Q (x.map f) := by
  cases h with
  | ok h a => exact .ok h (f a)
  | mismatch h expected actual => exact .mismatch h expected actual

/-- Two computations, one after another. -/
theorem bind_map {y : Except ProtocolError β} {γ : Type} (h : MismatchUnless Q x)
    (h' : MismatchUnless Q' y) (f : α → β → γ) :
    MismatchUnless (Q ∧ Q') (x >>= fun a => y.map (f a)) := by
  cases h with
  | ok h a => exact (h'.map (f a)).congr (by simp [h])
  | mismatch h expected actual => exact .mismatch (fun hQ => h hQ.1) expected actual

end MismatchUnless

variable [DecidableEq E]

theorem DhExtended.accepts_mismatchUnless {G : PrimeGroup E} {bases powers : List E}
    {commitments : List Message} (hlen : bases.length = powers.length)
    (hcount : commitments.length = bases.length) (e z : Nat) :
    MismatchUnless (Legible G commitments) (accepts G e z bases powers commitments) := by
  induction commitments generalizing bases powers with
  | nil =>
    obtain rfl := List.length_eq_zero_iff.mp hcount.symm
    obtain rfl := List.length_eq_zero_iff.mp hlen.symm
    exact .ok .nil true
  | cons commitment commitments ih =>
    obtain _ | ⟨base, bases⟩ := bases
    · simp at hcount
    obtain _ | ⟨power, powers⟩ := powers
    · simp at hlen
    cases commitment with
    | element a =>
      rw [accepts, Message.expectElement, ok_bind]
      cases ha : G.decode? a with
      | none =>
        -- The verdict is negative, whatever the other commitments are.
        exact .ok (.undecodable ha commitments) false
      | some x =>
        refine ((ih (by simpa using hlen) (by simpa using hcount)).map _).congr
          ⟨.decodable ha, fun h => ?_⟩
        cases h with
        | undecodable ha' => cases ha.symm.trans ha'
        | decodable _ h => exact h
    | _ => exact .mismatch (by rintro ⟨⟩) _ _

namespace Leaf

/-- A basic protocol gives a verdict on messages that have the expected forms. -/
theorem verify_mismatchUnless {l : Leaf E} {t : Soundness} {s : Statement E} (hs : l.Fits t s)
    (c : Bytes) (first second : Message) :
    MismatchUnless (l.Legible s first second) (l.verify t c s first second) := by
  cases hs with
  | dlog G h =>
    cases first with
    | element a =>
      cases second with
      | integer z => exact .ok (.dlog G _ a z) _
      | _ => exact .mismatch (by rintro ⟨⟩) _ _
    | _ => exact .mismatch (by rintro ⟨⟩) _ _
  | dhTuple G h u v =>
    cases first with
    | elementPair a b =>
      cases second with
      | integer z => exact .ok (.dhTuple G _ a b z) _
      | _ => exact .mismatch (by rintro ⟨⟩) _ _
    | _ => exact .mismatch (by rintro ⟨⟩) _ _
  | @dhExtended G bases powers hne hlen =>
    simp only [verify, Statement.expectDhExtended_eq_ok.mpr ⟨rfl, hne, hlen⟩, asProtocolError_ok,
      ok_bind]
    cases first with
    | multiple commitments =>
      cases second with
      | integer z =>
        by_cases hcount : commitments.length = bases.length
        · simp only [Message.expectMultiple, Message.expectInteger, ok_bind, hcount, ne_eq,
            not_true_eq_false, if_false]
          refine (DhExtended.accepts_mismatchUnless hlen hcount _ z).congr
            ⟨fun h => .dhExtended (fun _ => h) z, fun h => ?_⟩
          cases h with
          | dhExtended h => exact h hcount
        · simp only [Message.expectMultiple, Message.expectInteger, ok_bind, ne_eq, hcount,
            not_false_eq_true, if_true]
          exact .ok (.dhExtended (fun h => absurd h hcount) z) false
      | _ => exact .mismatch (by rintro ⟨⟩) _ _
    | _ => exact .mismatch (by rintro ⟨⟩) _ _
  | opening G h c =>
    cases first with
    | element a =>
      cases second with
      | opening u v => exact .ok (.opening G _ a u v) _
      | _ => exact .mismatch (by rintro ⟨⟩) _ _
    | _ => exact .mismatch (by rintro ⟨⟩) _ _
  | @encryptedZero key hkey c =>
    have hlong := DamgardJurik.Key.requireLength_eq_ok.mpr hkey
    simp only [verify_encryptedZero_def, EncryptedZero.verifierInput, Statement.expectDjZero, hlong,
      asProtocolError_ok, ok_bind]
    cases first with
    | integer a =>
      cases second with
      | integer z => exact .ok (.encryptedZero _ a z) _
      | _ => exact .mismatch (by rintro ⟨⟩) _ _
    | _ => exact .mismatch (by rintro ⟨⟩) _ _
  | @product key hkey c1 c2 c3 =>
    have hlong := DamgardJurik.Key.requireLength_eq_ok.mpr hkey
    simp only [verify_product_def, Product.verifierInput, Statement.expectDjProduct, hlong,
      asProtocolError_ok, ok_bind]
    cases first with
    | productCommitment a1 a2 =>
      cases second with
      | productResponse z1 z2 z3 => exact .ok (.product _ a1 a2 z1 z2 z3) _
      | _ => exact .mismatch (by rintro ⟨⟩) _ _
    | _ => exact .mismatch (by rintro ⟨⟩) _ _

/-- Flawed messages are not accepted. -/
theorem Flawed.not_accepted {l : Leaf E} {s : Statement E} {first : Message}
    (h : l.Flawed s first) (t : Soundness) (c : Bytes) (second : Message) :
    l.verify t c s first second ≠ .ok true := by
  intro hacc
  cases h with
  | dlog ha =>
    obtain ⟨_, _, _, -, hfirst, -, hacc⟩ := verify_dlog.mp hacc
    obtain rfl := Message.element.inj hfirst
    obtain ⟨_, hdecode, -⟩ := Dlog.accepts_iff.mp hacc
    cases ha.symm.trans hdecode
  | dhTuple hab =>
    obtain ⟨_, _, _, _, _, _, -, hfirst, -, hacc⟩ := verify_dhTuple.mp hacc
    obtain ⟨rfl, rfl⟩ := Message.elementPair.inj hfirst
    obtain ⟨_, _, hdecode, hdecode', -⟩ := DhTuple.accepts_iff.mp hacc
    rcases hab with ha | hb
    · cases ha.symm.trans hdecode
    · cases hb.symm.trans hdecode'
  | count hne =>
    obtain ⟨_, _, _, _, hs, hfirst, -, -, -, hcount, -⟩ := verify_dhExtended.mp hacc
    obtain ⟨rfl, rfl⟩ := Statement.dhExtended.inj hs
    obtain rfl := Message.multiple.inj hfirst
    exact hne hcount
  | commitment hmem ha =>
    obtain ⟨_, _, _, _, -, hfirst, -, -, hlen, hcount, hacc⟩ := verify_dhExtended.mp hacc
    obtain rfl := Message.multiple.inj hfirst
    obtain ⟨a', x, heq, hdecode⟩ := DhExtended.decodable_of_accepts hlen hcount hacc _ hmem
    obtain rfl := Message.element.inj heq
    cases ha.symm.trans hdecode
  | opening ha =>
    obtain ⟨_, _, _, _, _, -, hfirst, -, hacc⟩ := verify_opening.mp hacc
    obtain rfl := Message.element.inj hfirst
    obtain ⟨_, hdecode, -⟩ := Opening.accepts_iff.mp hacc
    cases ha.symm.trans hdecode

end Leaf

namespace Protocol

/-! ## Trees -/

/-- Under challenges of the right length, there is a verdict on the statement if the messages are
legible, and a mismatch of forms otherwise. -/
def Judges (t : Soundness) (P : Protocol E) (s : Statement E) : Prop :=
  ∀ c : Bytes, c.length = t.byteLength → ∀ first second,
    MismatchUnless (P.Legible s first second) (P.verdict c s first second)

/-- The branches of a composition, each under its own challenge. -/
theorem verdictEach_mismatchUnless {t : Soundness} {bs : List (Protocol E)}
    {ss : List (Statement E)} {cs : List Bytes} {fs zs : List Message}
    (hbs : ∀ b ∈ bs, b.soundness = t) (h : ∀ x ∈ bs.zip ss, Judges t x.1 x.2)
    (hss : ss.length = bs.length) (hcs : cs.length = bs.length) (hfs : fs.length = bs.length)
    (hzs : zs.length = bs.length) (hlengths : ∀ c ∈ cs, c.length = t.byteLength) :
    MismatchUnless (∀ x ∈ bs.zip (ss.zip (fs.zip zs)), x.1.Legible x.2.1 x.2.2.1 x.2.2.2)
      (verdictEach bs cs ss fs zs) := by
  induction bs generalizing ss cs fs zs with
  | nil => exact .ok (by simp) true
  | cons b bs ih =>
    obtain _ | ⟨s, ss⟩ := ss
    · simp at hss
    obtain _ | ⟨c, cs⟩ := cs
    · simp at hcs
    obtain _ | ⟨f, fs⟩ := fs
    · simp at hfs
    obtain _ | ⟨z, zs⟩ := zs
    · simp at hzs
    obtain ⟨hb, hbs⟩ := List.forall_mem_cons.mp hbs
    obtain ⟨hc, hlengths⟩ := List.forall_mem_cons.mp hlengths
    obtain ⟨hs, hrest⟩ := List.forall_mem_cons.mp h
    have hothers := ih hbs hrest (by simpa using hss) (by simpa using hcs) (by simpa using hfs)
      (by simpa using hzs) hlengths
    simp only [verdictEach, hb, requireChallenge_ok hc, mapError_ok, ok_bind, List.zip_cons_cons,
      List.forall_mem_cons]
    exact (hs c hc f z).bind_map hothers _

section Compositions

variable {t : Soundness} {bs : List (Protocol E)} {ss : List (Statement E)}
  (hbs : ∀ b ∈ bs, b.soundness = t) (hlen : bs.length = ss.length)
  (h : ∀ x ∈ bs.zip ss, Judges t x.1 x.2)

include hbs hlen h

theorem judges_all : Judges t (.all t bs) (.all ss) := by
  intro c hc first second
  cases first with
  | multiple fs =>
    cases second with
    | multiple zs =>
      rw [verdict_all_messages hlen]
      by_cases hcount : fs.length = bs.length ∧ zs.length = bs.length
      · rw [if_pos hcount]
        refine (verdictEach_mismatchUnless hbs h hlen.symm (by rw [List.length_replicate, hlen])
          hcount.1 hcount.2 (by simp [hc])).congr ⟨fun h => .all fun _ => h, fun h => ?_⟩
        cases h with
        | all h => exact h hcount
      · rw [if_neg hcount]
        exact .ok (.all fun h => absurd h hcount) false
    | _ =>
      simp only [verdict, Statement.expectAll, asProtocolError_ok, ok_bind, checkArity_ok hlen]
      exact .mismatch (by rintro ⟨⟩) _ _
  | _ =>
    simp only [verdict, Statement.expectAll, asProtocolError_ok, ok_bind, checkArity_ok hlen]
    exact .mismatch (by rintro ⟨⟩) _ _

theorem judges_any : Judges t (.any t bs) (.any ss) := by
  intro c hc first second
  cases first with
  | multiple fs =>
    cases second with
    | orResponse cs zs =>
      rw [verdict_any_messages hlen, hc]
      by_cases hcount : fs.length = bs.length ∧ cs.length = bs.length ∧
          zs.length = bs.length ∧ ∀ x ∈ cs, x.length = t.byteLength
      · rw [if_pos hcount]
        obtain ⟨hfs, hcs, hzs, hlengths⟩ := hcount
        refine ((verdictEach_mismatchUnless hbs h hlen.symm hcs hfs hzs hlengths).map _).congr
          ⟨fun h => .any fun _ => h, fun h => ?_⟩
        cases h with
        | any h => exact h ⟨hfs, hcs, hzs, hlengths⟩
      · rw [if_neg hcount]
        exact .ok (.any fun h => absurd h hcount) false
    | _ =>
      simp only [verdict, Statement.expectAny, asProtocolError_ok, ok_bind, checkArity_ok hlen]
      exact .mismatch (by rintro ⟨⟩) _ _
  | _ =>
    simp only [verdict, Statement.expectAny, asProtocolError_ok, ok_bind, checkArity_ok hlen]
    exact .mismatch (by rintro ⟨⟩) _ _

end Compositions

/-- A protocol that can be built judges all statements that fit. -/
theorem Fits.judges {t : Soundness} {P : Protocol E} (hP : P.Uniform t) {s : Statement E}
    (hs : P.Fits s) : Judges t P s := by
  -- All parts have the parameter `t`, so a challenge of the whole, or a share of it, has the length
  -- that a branch asks for, and the branch does not refuse it.
  induction hP generalizing s with
  | leaf l =>
    obtain ⟨hs⟩ := hs
    refine fun c _ first second =>
      (Leaf.verify_mismatchUnless hs c first second).congr ⟨.leaf, ?_⟩
    rintro ⟨h⟩
    exact h
  | adapted _ _ ih =>
    intro c hc first second
    obtain ⟨s', hs', hfits⟩ := hs.apply
    simp only [verdict, hs', asProtocolError_ok, ok_bind]
    refine (ih hfits c hc first second).congr ⟨.adapted hs', fun h => ?_⟩
    cases h with
    | adapted hs'' h =>
      obtain rfl := Except.ok.inj (hs'.symm.trans hs'')
      exact h
  | all _ hbs ih =>
    cases hs with
    | all hlen hfits =>
      exact judges_all (fun b hb => (hbs b hb).soundness_eq) hlen fun x hx =>
        ih x.1 (List.of_mem_zip hx).1 (hfits x hx)
  | any _ hbs ih =>
    cases hs with
    | any hlen hfits =>
      exact judges_any (fun b hb => (hbs b hb).soundness_eq) hlen fun x hx =>
        ih x.1 (List.of_mem_zip hx).1 (hfits x hx)

/-- If a composition accepts, each branch accepts its messages under some challenge. -/
theorem exists_accepted_of_verdictEach {bs : List (Protocol E)} {ss : List (Statement E)}
    {cs : List Bytes} {fs zs : List Message} (hcs : cs.length = bs.length)
    (h : verdictEach bs cs ss fs zs = .ok true) :
    ∀ x ∈ bs.zip (ss.zip (fs.zip zs)), ∃ c : Bytes, c.length = x.1.soundness.byteLength ∧
      x.1.verdict c x.2.1 x.2.2.1 x.2.2.2 = .ok true := by
  induction bs generalizing ss cs fs zs with
  | nil => simp
  | cons b bs ih =>
    obtain _ | ⟨c, cs⟩ := cs
    · simp at hcs
    obtain _ | ⟨s, ss⟩ := ss
    · simp
    obtain _ | ⟨f, fs⟩ := fs
    · simp
    obtain _ | ⟨z, zs⟩ := zs
    · simp
    obtain ⟨hc, hb, hothers⟩ := verdictEach_cons.mp h
    exact List.forall_mem_cons.mpr ⟨⟨c, hc, hb⟩, ih (by simpa using hcs) hothers⟩

/-- Flawed messages are not accepted. -/
theorem Flawed.not_accepted {P : Protocol E} {s : Statement E} {first second : Message}
    (h : P.Flawed s first second) {c : Bytes} (hc : c.length = P.soundness.byteLength) :
    P.verdict c s first second ≠ .ok true := by
  induction h generalizing c with
  | leaf h second => exact h.not_accepted _ c second
  | adapted hs _ ih =>
    simp only [verdict, hs, asProtocolError_ok, ok_bind]
    exact ih hc
  | all_count h s =>
    intro hacc
    obtain ⟨_, _, _, -, hf, hz, -, hfs, hzs, -⟩ := verdict_all_eq_true.mp hacc
    obtain rfl := Message.multiple.inj hf
    obtain rfl := Message.multiple.inj hz
    exact h.elim (absurd hfs) (absurd hzs)
  | all_branch hx _ ih =>
    intro hacc
    obtain ⟨_, _, _, hs, hf, hz, hss, -, -, heach⟩ := verdict_all_eq_true.mp hacc
    obtain rfl := Statement.all.inj hs
    obtain rfl := Message.multiple.inj hf
    obtain rfl := Message.multiple.inj hz
    obtain ⟨c', hc', hbranch⟩ :=
      exists_accepted_of_verdictEach (by rw [List.length_replicate, hss]) heach _ hx
    exact ih hc' hbranch
  | any_count h s =>
    intro hacc
    obtain ⟨_, _, _, _, -, hf, hz, -, hfs, hcs, hzs, -⟩ := verdict_any_eq_true.mp hacc
    obtain rfl := Message.multiple.inj hf
    obtain ⟨rfl, rfl⟩ := Message.orResponse.inj hz
    exact h.elim (absurd hfs) (·.elim (absurd hcs) (absurd hzs))
  | any_challenge hmem h s =>
    intro hacc
    obtain ⟨_, _, _, _, -, -, hz, -, -, -, -, hlengths, -⟩ := verdict_any_eq_true.mp hacc
    obtain ⟨rfl, rfl⟩ := Message.orResponse.inj hz
    exact h ((hlengths _ hmem).trans hc)
  | any_branch hx _ ih =>
    intro hacc
    obtain ⟨_, _, _, _, hs, hf, hz, -, -, hcs, -, -, -, heach⟩ := verdict_any_eq_true.mp hacc
    obtain rfl := Statement.any.inj hs
    obtain rfl := Message.multiple.inj hf
    obtain ⟨rfl, rfl⟩ := Message.orResponse.inj hz
    obtain ⟨c', hc', hbranch⟩ := exists_accepted_of_verdictEach hcs heach _ hx
    exact ih hc' hbranch

end Protocol

/-! ## Verifiers -/

/-- A verifier that holds a challenge gives a verdict or reports a mismatch of forms, whatever the
messages are, if the statement fits. It is a verdict just if the messages are legible, and a
negative one if they are flawed. -/
theorem Verifier.verify_of_fits {v : Verifier E} (hv : v.protocol.Constructible) {c : Bytes}
    (hc : v.challenge = some c) (hlen : c.length = v.soundness.byteLength) {s : Statement E}
    (hs : v.protocol.Fits s) (first second : Message) :
    (∃ accepted, (v.verify s first second).1 = .ok accepted ∧
        v.protocol.Legible s first second ∧
        (v.protocol.Flawed s first second → accepted = false)) ∨
      ∃ expected actual, (v.verify s first second).1 = .error (.messageMismatch expected actual) ∧
        ¬ v.protocol.Legible s first second := by
  rw [verify_fst hc]
  rw [← soundness_protocol] at hlen
  have hverdict := hs.judges hv.uniform c hlen first second
  generalize hresult : v.protocol.verdict c s first second = result at hverdict
  cases hverdict with
  | ok hlegible accepted =>
    refine .inl ⟨accepted, rfl, hlegible, fun hflawed => ?_⟩
    rw [← Bool.not_eq_true]
    rintro rfl
    exact hflawed.not_accepted hlen hresult
  | mismatch hlegible expected actual => exact .inr ⟨expected, actual, rfl, hlegible⟩

/-- An element of no byte, for the first branch, leads to a negative verdict. -/
theorem Verifier.verify_of_fits_smallTree :
    let v := (ofProtocol Protocol.smallTree).withSlot ⟨Protocol.smallSoundness, some [5]⟩
    let first := Message.multiple
      [.elementPair [] [0, 4], .multiple [.element [0, 4], .element [0, 4]]]
    let second := Message.orResponse [[1], [4]] [.integer 0, .multiple [.integer 0, .integer 0]]
    (v.verify Protocol.smallStatement first second).1 = .ok false := by
  intro v first second
  have hv : v.protocol = Protocol.smallTree :=
    (protocol_withSlot _ (by decide)).trans (protocol_ofProtocol _)
  have hlegible : Protocol.smallTree.Legible Protocol.smallStatement first second := by
    refine .any fun _ => ?_
    rintro x (_ | ⟨_, _ | ⟨_, hx⟩⟩)
    · exact .leaf (.dhTuple _ _ _ _ _)
    · refine .all fun _ => ?_
      rintro x (_ | ⟨_, _ | ⟨_, hx⟩⟩)
      · exact .leaf (.dlog _ _ _ _)
      · exact .adapted rfl (.leaf (.dlog _ _ _ _))
      · cases hx
    · cases hx
  have hflawed : Protocol.smallTree.Flawed Protocol.smallStatement first second :=
    .any_branch (.head _) (.leaf (.dhTuple (.inl (by decide)) _) _)
  have hverdict := verify_of_fits (hv ▸ Protocol.smallTree_constructible)
    (show v.challenge = some [5] by rfl) (by decide)
    (hv ▸ Protocol.smallTree_suits.fits) first second
  rw [hv] at hverdict
  obtain ⟨accepted, hresult, -, hnot⟩ | ⟨expected, actual, -, hnot⟩ := hverdict
  · rw [hresult, hnot hflawed]
  · exact absurd hlegible hnot

end SigmaProofs
