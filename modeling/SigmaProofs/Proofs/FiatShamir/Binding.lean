import SigmaProofs.FiatShamir
import SigmaProofs.Proofs.Group.Encoding
import SigmaProofs.Proofs.Message.PrefixFree
import SigmaProofs.Proofs.Relation

/-!
# What a challenge is bound to

A challenge is computed from what the transcript has taken in (`absorbed`). In a group whose
elements have different encodings, that tells the soundness parameter, the statement with all its
branches and the first message: no two subjects are absorbed alike, and no subject begins another
(`Subject.prefixFree_absorbed`). So several proofs on one transcript are told as a list
(`absorbed_binding`).

* `Statement.prefixFree_absorbed`: by the form of a statement, which its first message names, and by
  the counts of its lists.
-/

namespace SigmaProofs

/-! ## Single messages -/

/-- The loop of `ByteArray.toList` puts the bytes from an index on behind those it has collected. -/
theorem byteArray_toList_loop (bs : ByteArray) (i : Nat) (collected : List UInt8) :
    ByteArray.toList.loop bs i collected = collected.reverse ++ bs.data.toList.drop i := by
  fun_induction ByteArray.toList.loop bs i collected with
  | case1 i collected hlt ih =>
    have hget : bs.get! i = bs.data[i]! := rfl
    rw [ih, List.drop_eq_getElem_cons (i := i) (by simpa using hlt), hget,
      getElem!_pos bs.data i hlt]
    simp
  | case2 i collected hge =>
    rw [List.drop_eq_nil_of_le (by simpa using Nat.le_of_not_lt hge)]
    simp

/-- Texts are told apart by their bytes. -/
theorem textBytes_injective : Function.Injective Transcript.textBytes := by
  intro a b h
  have hdata : ∀ bs : ByteArray, bs.toList = bs.data.toList := fun bs => by
    rw [ByteArray.toList, byteArray_toList_loop]
    rfl
  rw [Transcript.textBytes, Transcript.textBytes, hdata, hdata] at h
  exact String.toByteArray_inj.mp (ByteArray.ext (Array.toList_inj.mp h))

theorem Labelled.ofNat64_inj {label : String} {m n : Nat} (hm : m < 2 ^ (64 : Nat))
    (hn : n < 2 ^ (64 : Nat)) (h : ofNat64 label m = ofNat64 label n) : m = n :=
  (prefixFree_littleEndian 8).inj hm hn (congrArg Labelled.message h)

theorem Labelled.ofNat_inj {label : String} {m n : Nat} : ofNat label m = ofNat label n ↔ m = n :=
  ⟨fun h => by simpa [ofNat] using congrArg (fun l => l.message.toNat) h, fun h => h ▸ rfl⟩

theorem ElGamalSecret.name_inj {a b : ElGamalSecret} : a.name = b.name ↔ a = b := by
  cases a <;> cases b <;> simp [name]

/-- A key is told apart; its length is a number of four bytes. -/
theorem DamgardJurik.Key.absorbed_append {key key' : Key} {rest rest' : List Labelled} :
    key.absorbed ++ rest = key'.absorbed ++ rest' ↔ key = key' ∧ rest = rest' := by
  refine ⟨fun h => ?_, fun h => by rw [h.1, h.2]⟩
  obtain ⟨hn, h'⟩ := List.cons.inj h
  obtain ⟨hs, hrest⟩ := List.cons.inj h'
  have hlt : ∀ key : Key, key.s < 2 ^ (64 : Nat) := fun key =>
    Nat.lt_trans key.s_lt (by decide)
  have hn' := Labelled.ofNat_inj.mp hn
  have hs' := Labelled.ofNat64_inj (hlt key) (hlt key') hs
  refine ⟨?_, hrest⟩
  obtain ⟨n, s⟩ := key
  obtain ⟨n', s'⟩ := key'
  simp only at hn' hs'
  subst hn' hs'
  rfl

/-! ## Statements -/

namespace Statement

variable {E : Type} {G : PrimeGroup E}

/-- The statements that a composition is made of. -/
def branches : Statement E → List (Statement E)
  | .all statements => statements
  | .any statements => statements
  | _ => []

/-- Induction over a statement: in a composition, the property may be used of all branches. -/
theorem induct {motive : Statement E → Prop}
    (step : ∀ s, (∀ b ∈ s.branches, motive b) → motive s) : ∀ s, motive s := by
  refine @Statement.rec E motive (fun ss => ∀ s ∈ ss, motive s) ?_ ?_ ?_ ?_ ?_ ?_ ?_ ?_ ?_ ?_ ?_
    (fun ss => step (.all ss)) (fun ss => step (.any ss)) (by simp)
    (fun _ _ hb hbs => List.forall_mem_cons.mpr ⟨hb, hbs⟩) <;>
  · intros
    exact step _ (by simp [branches])

mutual

/-- Eight bytes suffice for the lengths of all lists in the statement. -/
def LengthsFit : Statement E → Prop
  | .dhExtended bases powers => bases.length < 2 ^ (64 : Nat) ∧ powers.length < 2 ^ (64 : Nat)
  | .all statements => statements.length < 2 ^ (64 : Nat) ∧ LengthsFitAll statements
  | .any statements => statements.length < 2 ^ (64 : Nat) ∧ LengthsFitAll statements
  | _ => True

/-- So do they in each of the statements. -/
def LengthsFitAll : List (Statement E) → Prop
  | [] => True
  | s :: ss => LengthsFit s ∧ LengthsFitAll ss

end

theorem lengthsFitAll_iff {ss : List (Statement E)} :
    LengthsFitAll ss ↔ ∀ s ∈ ss, s.LengthsFit := by
  induction ss with
  | nil => simp [LengthsFitAll]
  | cons s ss ih => simp [LengthsFitAll, ih]

theorem absorbedAll_eq (ss : List (Statement E)) :
    absorbedAll G ss = ss.flatMap (absorbed G) := by
  induction ss with
  | nil => rfl
  | cons s ss ih => rw [absorbedAll, ih, List.flatMap_cons, absorbed, List.cons_append]

/-- The first message names the form of the statement. -/
theorem form_of_absorbed_append {s s' : Statement E} {rest rest' : List Labelled}
    (h : s.absorbed G ++ rest = s'.absorbed G ++ rest') :
    s.form = s'.form ∧ absorbedParts G s ++ rest = absorbedParts G s' ++ rest' := by
  obtain ⟨hheader, hparts⟩ := List.cons.inj h
  exact ⟨textBytes_injective (congrArg Labelled.message hheader), hparts⟩

/-- A counted list is told by the count and the items. -/
theorem eq_of_counted_append {α : Type} {P : α → Prop} {write : α → List Labelled}
    {as bs : List α} {rest rest' : List Labelled} (has : as.length < 2 ^ (64 : Nat))
    (hbs : bs.length < 2 ^ (64 : Nat)) (ha : ∀ a ∈ as, ToldApart P write a) (hb : ∀ b ∈ bs, P b)
    (h : .ofNat64 "len" as.length :: (as.flatMap write ++ rest) =
      .ofNat64 "len" bs.length :: (bs.flatMap write ++ rest')) : as = bs ∧ rest = rest' := by
  obtain ⟨hlen, hitems⟩ := List.cons.inj h
  exact eq_of_flatMap_append (Labelled.ofNat64_inj has hbs hlen) ha hb hitems

/-- An element under its label. -/
theorem toldApart_element (hG : Function.Injective G.encode) (label : String) (a : E) :
    ToldApart (fun _ => True) (fun a => ([⟨label, G.encode a⟩] : List Labelled)) a := by
  intro b _ rest rest' h
  simpa [hG.eq_iff] using h

/-- No statement begins another. -/
theorem prefixFree_absorbed (hG : Function.Injective G.encode) :
    PrefixFree LengthsFit (absorbed G) := by
  intro s
  induction s using induct with
  | step s ih =>
  intro hs s' hs' rest rest' h
  obtain ⟨hform, hparts⟩ := form_of_absorbed_append h
  cases s with
  | dhExtended bases powers =>
    cases s' <;> simp [form] at hform
    rename_i bases' powers'
    simp only [absorbedParts, List.map_eq_flatMap, List.append_assoc, List.cons_append] at hparts
    obtain ⟨hbases, hparts'⟩ := eq_of_counted_append hs.1 hs'.1
      (fun a _ => toldApart_element hG "base" a) (by simp) hparts
    obtain ⟨hpowers, hrest⟩ := eq_of_counted_append hs.2 hs'.2
      (fun a _ => toldApart_element hG "power" a) (by simp) hparts'
    exact ⟨by rw [hbases, hpowers], hrest⟩
  | all ss | any ss =>
    cases s' <;> simp [form] at hform
    rename_i ss'
    simp only [absorbedParts, absorbedAll_eq, List.cons_append] at hparts
    obtain ⟨hss, hrest⟩ := eq_of_counted_append hs.1 hs'.1
      (fun b hb => ih b hb (lengthsFitAll_iff.mp hs.2 b hb)) (lengthsFitAll_iff.mp hs'.2) hparts
    exact ⟨by rw [hss], hrest⟩
  | _ =>
    cases s' <;> simp [form] at hform
    simpa [absorbedParts, absorbedCiphertext, DamgardJurik.Key.absorbed_append, hG.eq_iff,
      Labelled.ofNat_inj, textBytes_injective.eq_iff, ElGamalSecret.name_inj, and_assoc]
      using hparts

end Statement

/-! ## Subjects -/

/-- What a challenge is computed from. -/
structure Subject (E : Type) where
  soundness : Soundness
  statement : Statement E
  first : Message

namespace Subject

variable {E : Type} {G : PrimeGroup E}

/-- The messages that stand for the subject. -/
def absorbed (G : PrimeGroup E) (x : Subject E) : List Labelled :=
  SigmaProofs.absorbed G x.soundness x.statement x.first

/-- Eight bytes suffice for the soundness parameter and for all lengths. -/
structure Fits (x : Subject E) : Prop where
  soundness : x.soundness.bits < 2 ^ (64 : Nat)
  statement : x.statement.LengthsFit
  first : x.first.toBytes.Short

/-- No subject begins another. -/
theorem prefixFree_absorbed (hG : Function.Injective G.encode) :
    PrefixFree Fits (absorbed G) := by
  rintro ⟨⟨t, ht, ht'⟩, s, m⟩ hx ⟨⟨u, hu, hu'⟩, s', m'⟩ hy rest rest' h
  simp only [absorbed, SigmaProofs.absorbed, List.cons_append, List.append_assoc,
    List.nil_append] at h
  obtain ⟨-, h⟩ := List.cons.inj h
  obtain ⟨htu, h⟩ := List.cons.inj h
  obtain ⟨hs, h⟩ := Statement.prefixFree_absorbed hG hx.statement hy.statement h
  obtain ⟨hfirst, hrest⟩ := List.cons.inj h
  have hbits : t = u := Labelled.ofNat64_inj hx.soundness hy.soundness htu
  have hm : m = m' :=
    Message.prefixFree_toBytes.inj hx.first hy.first (congrArg Labelled.message hfirst)
  exact ⟨by subst hbits hs hm; rfl, hrest⟩

theorem absorbed_ne_nil (x : Subject E) : x.absorbed G ≠ [] := by
  simp [absorbed, SigmaProofs.absorbed]

end Subject

/-- What a transcript takes in is bound to what the proofs are about: no subject is absorbed like
another or like the beginning of another, and the subjects of a list of proofs are told in order.
The encodings are different in every Schnorr group, for all numbers. -/
theorem absorbed_binding : (∀ S : SchnorrGroup, Function.Injective S.toPrimeGroup.encode) ∧
    ∀ {E : Type} {G : PrimeGroup E}, Function.Injective G.encode →
      (∀ x y : Subject E, x.Fits → y.Fits → x.absorbed G <+: y.absorbed G → x = y) ∧
      ∀ xs ys : List (Subject E), (∀ x ∈ xs, x.Fits) → (∀ y ∈ ys, y.Fits) →
        (xs.flatMap (Subject.absorbed G) <+: ys.flatMap (Subject.absorbed G) → xs <+: ys) ∧
        (xs.flatMap (Subject.absorbed G) = ys.flatMap (Subject.absorbed G) → xs = ys) := by
  refine ⟨SchnorrGroup.encode_injective, fun {E G} hG => ?_⟩
  have hfree := Subject.prefixFree_absorbed hG
  exact ⟨fun x y hx hy h => hfree.eq_of_isPrefix hx hy h, fun xs ys hxs hys =>
    ⟨fun h => hfree.prefix_of_flatMap Subject.absorbed_ne_nil hxs hys h,
      fun h => hfree.eq_of_flatMap Subject.absorbed_ne_nil hxs hys h⟩⟩

/-- A composition in a composition. -/
def smallSubject : Subject Nat :=
  ⟨Protocol.smallSoundness, .all [.all [.dlog 4, .dlog 16]], .element [4]⟩

/-- The same with the last statement one level higher. -/
def smallSubject' : Subject Nat :=
  ⟨Protocol.smallSoundness, .all [.all [.dlog 4], .dlog 16], .element [4]⟩

/-- Two subjects that differ only in where a list ends are told apart. -/
theorem absorbed_binding_small : smallSubject.Fits ∧ smallSubject'.Fits ∧
    ¬ smallSubject.absorbed SchnorrGroup.small.toPrimeGroup <+:
      smallSubject'.absorbed SchnorrGroup.small.toPrimeGroup ∧
    [smallSubject] <+: [smallSubject, smallSubject'] := by
  have hfirst : (Message.element [4]).toBytes.Short := by
    show 13 < 2 ^ (64 : Nat)
    decide
  have hbits : Protocol.smallSoundness.bits < 2 ^ (64 : Nat) := by decide
  have hx : smallSubject.Fits :=
    ⟨hbits, by simp [smallSubject, Statement.LengthsFit, Statement.LengthsFitAll], hfirst⟩
  have hy : smallSubject'.Fits :=
    ⟨hbits, by simp [smallSubject', Statement.LengthsFit, Statement.LengthsFitAll], hfirst⟩
  have hne : smallSubject ≠ smallSubject' := by simp [smallSubject, smallSubject']
  obtain ⟨hone, hlist⟩ := absorbed_binding.2 (absorbed_binding.1 SchnorrGroup.small)
  have hprefix : [smallSubject].flatMap (Subject.absorbed SchnorrGroup.small.toPrimeGroup) <+:
      [smallSubject, smallSubject'].flatMap (Subject.absorbed SchnorrGroup.small.toPrimeGroup) :=
    ⟨smallSubject'.absorbed SchnorrGroup.small.toPrimeGroup, by simp⟩
  exact ⟨hx, hy, fun h => hne (hone _ _ hx hy h),
    (hlist _ _ (by simpa using hx) (by simpa using ⟨hx, hy⟩)).1 hprefix⟩

end SigmaProofs
