import SigmaProofs.Message.Binary
import SigmaProofs.Proofs.Decoding

/-!
# The binary format of messages

* `Binary.reads_word`, `reads_bytes`, `reads_list`, `reads_integer`: the parts of a message are read
  back. Lengths are written in eight bytes; `Short` says that they suffice, of an input and so of
  all its parts.
* `Message.gives`: a message is read back where all its containers can be opened, and refused
  elsewhere.
* `Message.sound`: a message that is read, from whatever bytes, had all its containers opened.
-/

namespace SigmaProofs

/-! ## The parts of a message -/

/-- Eight bytes can say how long the byte string is. -/
def Bytes.Short (bs : Bytes) : Prop := bs.length < 2 ^ (64 : Nat)

theorem Bytes.Short.of_append_left {bs bs' : Bytes} (h : (bs ++ bs').Short) : bs.Short := by
  rw [Short, List.length_append] at h
  exact Nat.lt_of_le_of_lt (Nat.le_add_right _ _) h

theorem Bytes.Short.of_append_right {bs bs' : Bytes} (h : (bs ++ bs').Short) : bs'.Short := by
  rw [Short, List.length_append] at h
  exact Nat.lt_of_le_of_lt (Nat.le_add_left _ _) h

theorem Bytes.Short.of_mem {α : Type} {write : α → Bytes} {as : List α} {a : α}
    (h : Bytes.Short (as.flatMap write)) (ha : a ∈ as) : (write a).Short := by
  obtain ⟨before, after, rfl⟩ := List.append_of_mem ha
  rw [List.flatMap_append, List.flatMap_cons] at h
  exact h.of_append_right.of_append_left

theorem splitExactly_append {ι : Type} (front rest : List ι) :
    splitExactly front.length (front ++ rest) = some (front, rest) := by
  induction front with
  | nil => rfl
  | cons x front ih => simp [splitExactly, ih]

/-- A list of non-empty byte strings is not longer than they are together. -/
theorem length_le_length_flatMap {α : Type} {write : α → Bytes} (hpos : ∀ a, write a ≠ [])
    (as : List α) : as.length ≤ (as.flatMap write).length := by
  induction as with
  | nil => exact Nat.le_refl 0
  | cons a as ih =>
    have ha := List.length_pos_iff.mpr (hpos a)
    rw [List.length_cons, List.flatMap_cons, List.length_append]
    omega

namespace Binary

open Decoder

variable {depth : Nat}

theorem reads_exactly (bs : Bytes) : (readExactly bs.length).Reads depth bs bs := by
  intro rest
  simp only [readExactly, Decoder.ofRest, splitExactly_append]

theorem reads_fixed {k n : Nat} (h : n < 256 ^ k) :
    (ofLittleEndian <$> readExactly k).Reads depth (littleEndian k n) n := by
  have hread : (ofLittleEndian <$> readExactly (littleEndian k n).length).Reads depth
      (littleEndian k n) (ofLittleEndian (littleEndian k n)) :=
    (reads_exactly (littleEndian k n)).map ofLittleEndian
  rwa [littleEndian_length, ofLittleEndian_littleEndian h] at hread

theorem reads_word {w : Nat} (h : w < 2 ^ (32 : Nat)) : readWord.Reads depth (writeWord w) w :=
  reads_fixed h

theorem reads_length {n : Nat} (h : n < 2 ^ (64 : Nat)) :
    readLength.Reads depth (writeLength n) n :=
  reads_fixed h

theorem reads_bytes {bs : Bytes} (h : (writeBytes bs).Short) :
    readBytes.Reads depth (writeBytes bs) bs :=
  (reads_length h.of_append_right).bind (reads_exactly bs)

theorem reads_list {α : Type} {item : Decoder UInt8 α} {write : α → Bytes} {as : List α}
    (hpos : ∀ a, write a ≠ []) (hshort : Bytes.Short (as.flatMap write))
    (h : ∀ a ∈ as, (write a).Short → item.Reads depth (write a) a) :
    (readList item).Reads depth (writeLength as.length ++ as.flatMap write) as :=
  (reads_length (Nat.lt_of_le_of_lt (length_le_length_flatMap hpos as) hshort)).bind
    (.times fun a ha => h a ha (hshort.of_mem ha))

theorem writeWord_ne_nil (w : Nat) : writeWord w ≠ [] := by
  simp [writeWord, littleEndian]

theorem writeBytes_ne_nil (bs : Bytes) : writeBytes bs ≠ [] := by
  simp [writeBytes, writeLength, littleEndian]

theorem reads_integer {n : Nat} (h : (writeInteger n).Short) :
    readInteger.Reads depth (writeInteger n) n := by
  have hwords : (readList readWord).Reads depth (writeInteger n) (words n) :=
    reads_list writeWord_ne_nil h.of_append_right fun w hw _ => reads_word (digits_lt hw)
  have hread := hwords.map ofWords
  rwa [ofWords, words, ofDigits_digits (by decide)] at hread

/-- Items that may nest too deeply. -/
theorem gives_list {α : Type} {item : Decoder UInt8 α} {write : α → Bytes} {P : α → Prop}
    {as : List α} (hpos : ∀ a, write a ≠ []) (hshort : Bytes.Short (as.flatMap write))
    (h : ∀ a ∈ as, (write a).Short → ∀ rest,
      item.Gives ⟨write a ++ rest, depth⟩ (P a) a ⟨rest, depth⟩) (rest : Bytes) :
    (readList item).Gives ⟨writeLength as.length ++ as.flatMap write ++ rest, depth⟩
      (∀ a ∈ as, P a) as ⟨rest, depth⟩ := by
  rw [List.append_assoc]
  exact .after (reads_length
      (Nat.lt_of_le_of_lt (length_le_length_flatMap hpos as) hshort) _)
    (.times (fun a ha => h a ha (hshort.of_mem ha)) rest)

/-! ### Whatever is read -/

theorem splitExactly_more {ι : Type} {n : Nat} {input front rest : List ι}
    (h : splitExactly n input = some (front, rest)) (more : List ι) :
    splitExactly n (input ++ more) = some (front, rest ++ more) := by
  induction n generalizing input front with
  | zero =>
    obtain ⟨rfl, rfl⟩ := by simpa [splitExactly] using h
    rfl
  | succ n ih =>
    obtain _ | ⟨x, input⟩ := input
    · simp [splitExactly] at h
    obtain ⟨⟨front', rest'⟩, hsplit, hfront⟩ := Option.map_eq_some_iff.mp h
    obtain ⟨rfl, rfl⟩ := Prod.mk.inj hfront
    rw [List.cons_append, splitExactly, ih hsplit]
    rfl

theorem sound_exactly (n : Nat) : (readExactly n).Sound depth fun _ => True := by
  intro input bs c h
  simp only [readExactly, Decoder.ofRest] at h ⊢
  cases hsplit : splitExactly n input with
  | none => simp [hsplit] at h
  | some x =>
    simp only [hsplit, Prod.mk.injEq, Except.ok.injEq] at h
    obtain ⟨rfl, rfl⟩ := h
    exact ⟨trivial, rfl, fun more => by simp [splitExactly_more hsplit]⟩

theorem sound_word : readWord.Sound depth fun _ => True := (sound_exactly 4).map

theorem sound_length : readLength.Sound depth fun _ => True := (sound_exactly 8).map

theorem sound_bytes : readBytes.Sound depth fun _ => True :=
  sound_length.bind fun n _ => sound_exactly n

theorem sound_list {α : Type} {item : Decoder UInt8 α} {P : α → Prop} (h : item.Sound depth P) :
    (readList item).Sound depth fun as => ∀ a ∈ as, P a :=
  sound_length.bind fun n _ => h.times n

theorem sound_integer : readInteger.Sound depth fun _ => True :=
  .map ((sound_list sound_word).mono fun _ _ => trivial)

end Binary

/-! ## Messages -/

namespace Message

open Binary Decoder

variable {depth levels : Nat}

/-- Induction over a message: in a container, the property may be used of all parts. -/
@[elab_as_elim, induction_eliminator]
theorem induct {motive : Message → Prop} (element : ∀ encoding, motive (.element encoding))
    (integer : ∀ value, motive (.integer value)) (elementPair : ∀ a b, motive (.elementPair a b))
    (opening : ∀ u v, motive (.opening u v))
    (productCommitment : ∀ a1 a2, motive (.productCommitment a1 a2))
    (productResponse : ∀ z1 z2 z3, motive (.productResponse z1 z2 z3))
    (multiple : ∀ parts, (∀ m ∈ parts, motive m) → motive (.multiple parts))
    (orResponse : ∀ challenges responses, (∀ m ∈ responses, motive m) →
      motive (.orResponse challenges responses)) : ∀ m, motive m :=
  @Message.rec motive (fun ms => ∀ m ∈ ms, motive m) element integer elementPair opening
    productCommitment productResponse multiple orResponse (by simp)
    fun _ _ hm hms => List.forall_mem_cons.mpr ⟨hm, hms⟩

/-- The messages in a container nest one level deeper. -/
theorem contained_fit_iff {ms : List Message} :
    (depth < maxNesting ∧ ∀ m ∈ ms, depth + 1 + m.nesting ≤ maxNesting) ↔
      depth + (nestingAll ms + 1) ≤ maxNesting := by
  constructor
  · rintro ⟨hdepth, hms⟩
    have hall : nestingAll ms ≤ maxNesting - (depth + 1) :=
      nestingAll_le_iff.mpr fun m hm => Nat.le_sub_of_add_le' (hms m hm)
    omega
  · intro h
    refine ⟨by omega, fun m hm => ?_⟩
    have := nestingAll_le_iff.mp (Nat.le_refl _) m hm
    omega

theorem toBytesAll_eq (ms : List Message) : toBytesAll ms = ms.flatMap toBytes := by
  induction ms with
  | nil => rfl
  | cons m ms ih => rw [toBytesAll, ih, List.flatMap_cons]

/-- Every message starts with the index of its form. -/
theorem exists_toBytes_eq (m : Message) : ∃ fields, m.toBytes = writeWord m.index ++ fields := by
  cases m <;> simp [toBytes, index]

theorem toBytes_ne_nil (m : Message) : m.toBytes ≠ [] := by
  obtain ⟨fields, h⟩ := m.exists_toBytes_eq
  simp [h, writeWord_ne_nil]

/-- Behind the index of its form, a message is read as its fields are. -/
theorem gives_index {fields : Nat → Decoder UInt8 Message} {m : Message} {bs rest : Bytes}
    {fits : Prop} (h : (fields m.index).Gives ⟨bs ++ rest, depth⟩ fits m ⟨rest, depth⟩) :
    (readWord >>= fields).Gives ⟨writeWord m.index ++ bs ++ rest, depth⟩ fits m ⟨rest, depth⟩ := by
  rw [List.append_assoc]
  refine .after (reads_word ?_ _) h
  cases m <;> simp [index]

/-- A message without containers is always read. -/
theorem gives_flat {fields : Nat → Decoder UInt8 Message} {m : Message} {bs rest : Bytes}
    (hnesting : m.nesting = 0) (hdepth : depth ≤ maxNesting)
    (h : (fields m.index).Reads depth bs m) :
    (readWord >>= fields).Gives ⟨writeWord m.index ++ bs ++ rest, depth⟩
      (depth + m.nesting ≤ maxNesting) m ⟨rest, depth⟩ :=
  gives_index ((h.gives rest).congr (by simpa [hnesting] using hdepth))

/-- The messages in a container are read one level deeper, by the decoder with one level less. -/
theorem gives_contained {ms : List Message} (hlevels : depth + levels = maxNesting)
    (hshort : (toBytesAll ms).Short)
    (h : ∀ m ∈ ms, ∀ {levels}, depth + 1 + levels = maxNesting → m.toBytes.Short → ∀ rest,
      (decoder (levels + 1)).Gives ⟨m.toBytes ++ rest, depth + 1⟩
        (depth + 1 + m.nesting ≤ maxNesting) m ⟨rest, depth + 1⟩) (rest : Bytes) :
    (inContainer (readList (decoder levels))).Gives
      ⟨writeLength ms.length ++ toBytesAll ms ++ rest, depth⟩
      (depth + (nestingAll ms + 1) ≤ maxNesting) ms ⟨rest, depth⟩ := by
  rw [toBytesAll_eq] at hshort ⊢
  refine (Gives.inContainer fun hdepth => ?_).congr contained_fit_iff
  obtain _ | levels := levels
  · omega
  · exact gives_list toBytes_ne_nil hshort (fun m hm => h m hm (by omega)) rest

/-- A message is read where its containers are within those that may be opened, and refused
elsewhere. -/
theorem gives {m : Message} (hlevels : depth + levels = maxNesting) (hshort : m.toBytes.Short)
    (rest : Bytes) : (decoder (levels + 1)).Gives ⟨m.toBytes ++ rest, depth⟩
      (depth + m.nesting ≤ maxNesting) m ⟨rest, depth⟩ := by
  have hdepth : depth ≤ maxNesting := by omega
  induction m generalizing depth levels rest with
  | element encoding =>
    exact gives_flat (m := element encoding) rfl hdepth
      (reads_bytes hshort.of_append_right).bind_pure
  | integer value =>
    exact gives_flat (m := integer value) rfl hdepth
      (reads_integer hshort.of_append_right).bind_pure
  | elementPair a b =>
    rw [toBytes, List.append_assoc (writeWord 2)] at hshort ⊢
    have h := hshort.of_append_right
    exact gives_flat (m := elementPair a b) rfl hdepth
      ((reads_bytes h.of_append_left).bind (reads_bytes h.of_append_right).bind_pure)
  | opening u v =>
    rw [toBytes, List.append_assoc (writeWord 3)] at hshort ⊢
    have h := hshort.of_append_right
    exact gives_flat (m := opening u v) rfl hdepth
      ((reads_integer h.of_append_left).bind (reads_integer h.of_append_right).bind_pure)
  | productCommitment a1 a2 =>
    rw [toBytes, List.append_assoc (writeWord 4)] at hshort ⊢
    have h := hshort.of_append_right
    exact gives_flat (m := productCommitment a1 a2) rfl hdepth
      ((reads_integer h.of_append_left).bind (reads_integer h.of_append_right).bind_pure)
  | productResponse z1 z2 z3 =>
    rw [toBytes, List.append_assoc (writeWord 5 ++ _), List.append_assoc (writeWord 5)] at hshort ⊢
    have h := hshort.of_append_right
    have h' := h.of_append_right
    exact gives_flat (m := productResponse z1 z2 z3) rfl hdepth
      ((reads_integer h.of_append_left).bind
        ((reads_integer h'.of_append_left).bind (reads_integer h'.of_append_right).bind_pure))
  | multiple parts ih =>
    rw [toBytes, List.append_assoc (writeWord 6)] at hshort ⊢
    have hparts := gives_contained hlevels hshort.of_append_right.of_append_right
      (fun m hm _ hlevels hs rest => ih m hm hlevels hs rest (by omega)) rest
    exact gives_index (m := multiple parts) (hparts.bind_pure multiple)
  | orResponse challenges responses ih =>
    have hfields : (orResponse challenges responses).toBytes = writeWord 7 ++
        ((writeLength challenges.length ++ challenges.flatMap writeBytes) ++
          (writeLength responses.length ++ toBytesAll responses)) := by
      simp [toBytes]
    rw [hfields] at hshort ⊢
    have h := hshort.of_append_right
    have hresponses := gives_contained hlevels h.of_append_right.of_append_right
      (fun m hm _ hlevels hs rest => ih m hm hlevels hs rest (by omega)) rest
    have hchallenges : (readList readBytes).Reads depth _ challenges :=
      reads_list writeBytes_ne_nil h.of_append_left.of_append_right fun c _ hc => reads_bytes hc
    refine gives_index (m := orResponse challenges responses) ?_
    rw [List.append_assoc]
    exact .after (hchallenges _) (hresponses.bind_pure (orResponse challenges))

/-- Of a message that is read, all containers were opened. -/
theorem sound (levels : Nat) {depth : Nat} (hdepth : depth ≤ maxNesting) :
    (decoder levels).Sound depth fun m => depth + m.nesting ≤ maxNesting := by
  induction levels generalizing depth with
  | zero => exact sound_malformed
  | succ levels ih =>
  have hcontained : (inContainer (readList (decoder levels))).Sound depth
      fun ms => depth + (nestingAll ms + 1) ≤ maxNesting :=
    (Sound.inContainer fun hopen => sound_list (ih hopen)).mono fun ms h => contained_fit_iff.mp h
  refine sound_word.bind fun index _ => ?_
  split
  · exact sound_bytes.bind fun encoding _ => sound_pure hdepth
  · exact sound_integer.bind fun value _ => sound_pure hdepth
  · exact sound_bytes.bind fun a _ => sound_bytes.bind fun b _ => sound_pure hdepth
  · exact sound_integer.bind fun u _ => sound_integer.bind fun v _ => sound_pure hdepth
  · exact sound_integer.bind fun a1 _ => sound_integer.bind fun a2 _ => sound_pure hdepth
  · exact sound_integer.bind fun z1 _ => sound_integer.bind fun z2 _ =>
      sound_integer.bind fun z3 _ => sound_pure hdepth
  · exact hcontained.bind fun parts h => sound_pure h
  · exact (sound_list sound_bytes).bind fun challenges _ => hcontained.bind fun responses h =>
      sound_pure h
  · exact sound_malformed

/-! ## Formats -/

/-- A message is received as it was sent. -/
theorem ofFrame_toBytes {m : Message} (hm : m.nesting ≤ maxNesting) (hshort : m.toBytes.Short) :
    ofFrame m.toBytes = .ok m := by
  have hread := gives (m := m) (Nat.zero_add maxNesting) hshort []
  rw [List.append_nil, Nat.zero_add] at hread
  rw [ofFrame, ofBytes, binaryDecoder, hread.run, if_pos hm]
  rfl

end Message

end SigmaProofs
