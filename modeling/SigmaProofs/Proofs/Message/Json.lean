import SigmaProofs.Message.Json
import SigmaProofs.Proofs.Base64Url
import SigmaProofs.Proofs.Json.Containers
import SigmaProofs.Proofs.Json.Room
import SigmaProofs.Proofs.Message.Binary

/-!
# The JSON format of messages

* `Json.reads_bytes`, `Json.reads_integer`: byte strings and integers of any size are read back.
* `Message.gives_json`: a message is read back where all its containers can be opened, and refused
  elsewhere, if there is room for three JSON containers on each level that is left.
* `Message.alike_jsonDecoder`: with so much room or more, any text is read alike, and of a message
  that is read all containers were opened.
-/

namespace SigmaProofs

open Decoder

/-! ## The parts of a message -/

namespace Json

variable {depth room : Nat}

theorem reads_bytes (bs : Bytes) : readBytes.Reads depth (writeBytes bs) bs := by
  intro rest
  rw [readBytes, writeBytes, bind_of_ok (string_quote _ _), Base64Url.decode?_encode]
  rfl

theorem begins_bytes (bs : Bytes) : Begins (writeBytes bs) :=
  ⟨'"', _, rfl, rfl, by decide, by decide⟩

theorem begins_decimal (n : Nat) : Begins (decimal n) := by
  obtain ⟨c, ds, h, hc⟩ := exists_decimal_eq n
  refine ⟨c, ds, h, isBlank_of_isDigit hc, ?_, ?_⟩
  · rintro rfl
    cases hc
  · rintro rfl
    cases hc

/-- An array of which every item is read. -/
theorem reads_array {α : Type} {item : Nat → Decoder Char α} {write : α → List Char} {as : List α}
    (hbegins : ∀ a ∈ as, Begins (write a))
    (h : ∀ a ∈ as, ∀ rest, EndsItem rest →
      item room ⟨write a ++ rest, depth⟩ = (.ok a, ⟨rest, depth⟩)) :
    (array (room + 1) item).Reads depth (writeArray (as.map write)) as := fun rest =>
  (gives_array (P := fun _ => True) hbegins
    (fun a ha rest hrest => gives_of_ok (h a ha rest hrest)) rest).ok fun _ _ => trivial

theorem reads_integer (n : Nat) : (readInteger (room + 1)).Reads depth (writeInteger n) n := by
  have hwords : (array (room + 1) fun _ => word).Reads depth (writeInteger n) (Binary.words n) :=
    reads_array (fun w _ => begins_decimal w) fun w hw rest hrest =>
      word_decimal (digits_lt hw) hrest.endsNumber
  have hread := hwords.map Binary.ofWords
  rwa [Binary.ofWords, Binary.words, ofDigits_digits (by decide)] at hread

/-- A byte string as a field. -/
def bytesEntry (name : String) (bs : Bytes) : Entry Bytes :=
  ⟨name, fun _ => readBytes, writeBytes bs, bs, True⟩

/-- An integer as a field. -/
def integerEntry (name : String) (n : Nat) : Entry Nat :=
  ⟨name, readInteger, writeInteger n, n, True⟩

/-- Fields that are always read. -/
theorem reads_values {ν : Type} {fs : List (Entry ν)} (hnames : (fs.map Entry.name).Nodup)
    (h : ∀ f ∈ fs, f.fits = True ∧ (f.read room).Reads depth f.text f.value) :
    (values (room + 1) (fs.map Entry.reader)).Reads depth
      (writeObject (fs.map fun f => (f.name, f.text))) (fs.map Entry.value) := by
  intro rest
  refine (gives_values hnames (fun f hf rest => ?_) rest).ok fun f hf => (h f hf).1 ▸ trivial
  rw [(h f hf).1]
  exact ((h f hf).2.gives rest)

end Json

open Json

namespace Message

variable {depth room room' : Nat}

theorem reads_bytesPair {first second : String} (hne : first ≠ second) (a b : Bytes) :
    (readBytesPair first second (room + 1)).Reads depth
      (writeObject [(first, writeBytes a), (second, writeBytes b)]) (a, b) := by
  intro rest
  have hvalues : (values (room + 1) ([bytesEntry first a, bytesEntry second b].map
      Entry.reader)).Reads depth _ [a, b] :=
    reads_values (by simpa [bytesEntry] using hne) (by simp [bytesEntry, reads_bytes])
  exact bind_of_ok (hvalues rest)

theorem reads_integers (xs : List (String × Nat)) (hnames : (xs.map Prod.fst).Nodup) :
    (readIntegers (xs.map Prod.fst) (room + 2)).Reads depth
      (writeObject (xs.map fun x => (x.1, writeInteger x.2))) (xs.map Prod.snd) := by
  have hvalues : (values (room + 2) ((xs.map fun x => integerEntry x.1 x.2).map
      Entry.reader)).Reads depth _ _ :=
    reads_values (by rwa [List.map_map]) fun f hf => by
      obtain ⟨x, -, rfl⟩ := List.mem_map.mp hf
      exact ⟨rfl, reads_integer x.2⟩
  simp only [List.map_map] at hvalues
  rw [readIntegers, List.map_map]
  exact hvalues

/-- A message without containers is always read. -/
theorem gives_flat_json {payload : String → Option (Nat → Decoder Char Message)} {m : Message}
    {name : String} {read : Nat → Decoder Char Message} {text rest : List Char}
    (hnesting : m.nesting = 0) (hdepth : depth ≤ maxNesting) (hpayload : payload name = some read)
    (h : (read room).Reads depth text m) :
    (variant (room + 1) payload).Gives ⟨writeObject [(name, text)] ++ rest, depth⟩
      (depth + m.nesting ≤ maxNesting) m ⟨rest, depth⟩ :=
  (gives_variant hpayload h.gives rest).congr (by simpa [hnesting] using hdepth)

theorem begins_json (m : Message) : Begins m.toJson := by
  cases m <;> exact ⟨'\x7b', _, rfl, rfl, by decide, by decide⟩

theorem toJsonAll_eq (ms : List Message) : toJsonAll ms = ms.map toJson := by
  induction ms with
  | nil => rfl
  | cons m ms ih => rw [toJsonAll, ih, List.map_cons]

/-- The messages in a container are read one level deeper. There is room for three JSON containers
on each level that is left, so there is room enough for the next of them. -/
theorem gives_contained_json {ms : List Message}
    (h : ∀ m ∈ ms, ∀ {depth room}, depth ≤ maxNesting → 3 * (maxNesting - depth) ≤ room → ∀ rest,
      (jsonDecoder (room + 3)).Gives ⟨m.toJson ++ rest, depth⟩ (depth + m.nesting ≤ maxNesting) m
        ⟨rest, depth⟩)
    (hroom : 3 * (maxNesting - depth) ≤ room) (rest : List Char) :
    (inContainer (array (room + 1) fun _ => jsonDecoder room)).Gives
      ⟨writeArray (toJsonAll ms) ++ rest, depth⟩ (depth + (nestingAll ms + 1) ≤ maxNesting) ms
      ⟨rest, depth⟩ := by
  rw [toJsonAll_eq]
  refine (Gives.inContainer fun hdepth => ?_).congr contained_fit_iff
  obtain ⟨room, rfl⟩ := Nat.exists_eq_add_of_le' (by omega : 3 ≤ room)
  refine gives_array (fun m _ => m.begins_json) (fun m hm rest _ => ?_) rest
  exact h m hm hdepth (by omega) rest

/-- The fields of an OR response. -/
def orEntries (depth room : Nat) (challenges : List Bytes) (responses : List Message) :
    List (Entry OrField) :=
  [⟨"challenges", fun room => .challenges <$> array room fun _ => readBytes,
      writeArray (challenges.map writeBytes), .challenges challenges, True⟩,
    ⟨"responses", fun _ =>
        .responses <$> .inContainer (array (room + 1) fun _ => jsonDecoder room),
      writeArray (toJsonAll responses), .responses responses,
      depth + (nestingAll responses + 1) ≤ maxNesting⟩]

/-- A message is read where its containers are within those that may be opened, and refused
elsewhere. -/
theorem gives_json {m : Message} (hdepth : depth ≤ maxNesting)
    (hroom : 3 * (maxNesting - depth) ≤ room) (rest : List Char) :
    (jsonDecoder (room + 3)).Gives ⟨m.toJson ++ rest, depth⟩ (depth + m.nesting ≤ maxNesting) m
      ⟨rest, depth⟩ := by
  induction m generalizing depth room rest with
  | element encoding =>
    exact gives_flat_json rfl hdepth rfl ((reads_bytes encoding).map element)
  | integer value =>
    exact gives_flat_json rfl hdepth rfl ((reads_integer value).map integer)
  | elementPair a b =>
    exact gives_flat_json rfl hdepth rfl (reads_bytesPair (by decide) a b).bind_pure
  | opening u v =>
    have hread : (readIntegers ["u", "v"] (room + 2)).Reads depth _ [u, v] :=
      reads_integers [("u", u), ("v", v)] (by simp)
    exact gives_flat_json rfl hdepth rfl fun rest => bind_of_ok (hread rest)
  | productCommitment a1 a2 =>
    have hread : (readIntegers ["a1", "a2"] (room + 2)).Reads depth _ [a1, a2] :=
      reads_integers [("a1", a1), ("a2", a2)] (by simp)
    exact gives_flat_json rfl hdepth rfl fun rest => bind_of_ok (hread rest)
  | productResponse z1 z2 z3 =>
    have hread : (readIntegers ["z1", "z2", "z3"] (room + 2)).Reads depth _ [z1, z2, z3] :=
      reads_integers [("z1", z1), ("z2", z2), ("z3", z3)] (by simp)
    exact gives_flat_json rfl hdepth rfl fun rest => bind_of_ok (hread rest)
  | multiple parts ih =>
    have hparts := gives_contained_json ih (by omega : 3 * (maxNesting - depth) ≤ room + 1)
    exact gives_variant rfl (fun rest => (hparts rest).map multiple) rest
  | orResponse challenges responses ih =>
    have hchallenges : (array (room + 1) fun _ => readBytes).Reads depth _ challenges :=
      reads_array (fun c _ => begins_bytes c) fun c _ rest _ => reads_bytes c rest
    have hresponses := gives_contained_json ih hroom
    have hfields : ∀ f ∈ orEntries depth room challenges responses, f.ReadBack (room + 1) depth :=
      List.forall_mem_cons.mpr ⟨(hchallenges.map OrField.challenges).gives,
        List.forall_mem_singleton.mpr fun rest => (hresponses rest).map OrField.responses⟩
    refine gives_variant rfl (fun rest => ?_) rest
    refine ((gives_values (by simp [orEntries]) hfields rest).bind fun _ => gives_of_ok rfl).congr ?_
    simp [orEntries, nesting]

/-! ## Whatever is read -/

theorem alike_bytes : Alike readBytes readBytes depth fun _ => True :=
  alike_string.bind fun _ _ => alike_ofOption _

theorem alike_integer (room room' : Nat) :
    Alike (readInteger (room + 1)) (readInteger (room' + 1)) depth fun _ => True :=
  .map ((alike_array alike_word).mono fun _ _ => trivial)

theorem alike_bytesPair (first second : String) (room room' : Nat) :
    Alike (readBytesPair first second (room + 1)) (readBytesPair first second (room' + 1)) depth
      fun _ => True := by
  have hfield : ∀ name : String, AlikeField room room' depth (fun _ : Bytes => True)
      (name, fun _ => readBytes) (name, fun _ => readBytes) := fun name => ⟨rfl, alike_bytes⟩
  refine (alike_values (.cons (hfield first) (.cons (hfield second) .nil))).bind fun vs _ => ?_
  split
  · exact alike_pure trivial
  · exact alike_malformed

theorem alike_integers (names : List String) (room room' : Nat) :
    Alike (readIntegers names (room + 2)) (readIntegers names (room' + 2)) depth
      fun _ => True := by
  have hfields : List.Forall₂ (AlikeField (room + 1) (room' + 1) depth fun _ : Nat => True)
      (names.map fun name => (name, readInteger)) (names.map fun name => (name, readInteger)) := by
    induction names with
    | nil => exact .nil
    | cons name names ih => exact .cons ⟨rfl, alike_integer room room'⟩ ih
  exact (alike_values hfields).mono fun _ _ => trivial

/-- The messages in a container are read alike one level deeper, with room for what they may
contain. -/
theorem alike_contained
    (h : ∀ room room', depth < maxNesting → 3 * (maxNesting - (depth + 1)) ≤ room →
      3 * (maxNesting - (depth + 1)) ≤ room' →
      Alike (jsonDecoder (room + 3)) (jsonDecoder (room' + 3)) (depth + 1)
        fun m => depth + 1 + m.nesting ≤ maxNesting)
    (hroom : 3 * (maxNesting - depth) ≤ room) (hroom' : 3 * (maxNesting - depth) ≤ room') :
    Alike (inContainer (array (room + 1) fun _ => jsonDecoder room))
      (inContainer (array (room' + 1) fun _ => jsonDecoder room')) depth
      fun ms => depth + (nestingAll ms + 1) ≤ maxNesting := by
  refine (Alike.inContainer fun hdepth => ?_).mono fun _ hms => contained_fit_iff.mp hms
  obtain ⟨room, rfl⟩ := Nat.exists_eq_add_of_le' (by omega : 3 ≤ room)
  obtain ⟨room', rfl⟩ := Nat.exists_eq_add_of_le' (by omega : 3 ≤ room')
  exact alike_array (h room room' hdepth (by omega) (by omega))

/-- What is known of a field of an OR response that was read. -/
def OrField.Fits (depth : Nat) : OrField → Prop
  | .challenges _ => True
  | .responses messages => depth + (nestingAll messages + 1) ≤ maxNesting

/-- With room for three JSON containers on each level that is left, the room makes no difference;
and of a message that is read, all containers were opened. -/
theorem alike_jsonDecoder (hdepth : depth ≤ maxNesting) (hroom : 3 * (maxNesting - depth) ≤ room)
    (hroom' : 3 * (maxNesting - depth) ≤ room') :
    Alike (jsonDecoder (room + 3)) (jsonDecoder (room' + 3)) depth
      fun m => depth + m.nesting ≤ maxNesting := by
  induction hlevels : maxNesting - depth using Nat.strongRecOn generalizing depth room room' with
  | ind levels ih =>
  have hcontained : ∀ {room room'}, 3 * (maxNesting - depth) ≤ room →
      3 * (maxNesting - depth) ≤ room' →
      Alike (inContainer (array (room + 1) fun _ => jsonDecoder room))
        (inContainer (array (room' + 1) fun _ => jsonDecoder room')) depth
        fun ms => depth + (nestingAll ms + 1) ≤ maxNesting := alike_contained
    fun room room' hdepth hroom hroom' => ih _ (by omega) hdepth hroom hroom' rfl
  refine alike_variant fun name => ?_
  split
  · exact .some (.map (alike_bytes.mono fun _ _ => hdepth))
  · exact .some (.map ((alike_integer (room + 1) (room' + 1)).mono fun _ _ => hdepth))
  · exact .some ((alike_bytesPair "a" "b" (room + 1) (room' + 1)).bind fun x _ => alike_pure hdepth)
  · refine .some ((alike_integers ["u", "v"] room room').bind fun ns _ => ?_)
    split
    · exact alike_pure hdepth
    · exact alike_malformed
  · refine .some ((alike_integers ["a1", "a2"] room room').bind fun ns _ => ?_)
    split
    · exact alike_pure hdepth
    · exact alike_malformed
  · refine .some ((alike_integers ["z1", "z2", "z3"] room room').bind fun ns _ => ?_)
    split
    · exact alike_pure hdepth
    · exact alike_malformed
  · exact .some (.map (hcontained (by omega) (by omega)))
  · have hchallenges : AlikeField (room + 1) (room' + 1) depth (OrField.Fits depth)
        ("challenges", fun room => OrField.challenges <$> array room fun _ => readBytes)
        ("challenges", fun room => OrField.challenges <$> array room fun _ => readBytes) :=
      ⟨rfl, .map ((alike_array alike_bytes).mono fun _ _ => trivial)⟩
    have hresponses : AlikeField (room + 1) (room' + 1) depth (OrField.Fits depth)
        ("responses", fun _ =>
          OrField.responses <$> inContainer (array (room + 1) fun _ => jsonDecoder room))
        ("responses", fun _ =>
          OrField.responses <$> inContainer (array (room' + 1) fun _ => jsonDecoder room')) :=
      ⟨rfl, .map (hcontained hroom hroom')⟩
    refine .some ((alike_values (.cons hchallenges (.cons hresponses .nil))).bind fun vs hvs => ?_)
    split
    · rename_i challenges responses
      have hfits : OrField.Fits depth (.responses responses) := hvs _ (by simp)
      exact alike_pure hfits
    · exact alike_malformed
  · exact .none

end Message

end SigmaProofs
