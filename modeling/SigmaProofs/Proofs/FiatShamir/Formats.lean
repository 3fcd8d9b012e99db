import SigmaProofs.FiatShamir
import SigmaProofs.Proofs.Message.Json

/-!
# The formats of messages and proofs

* `binary_faithful`: messages and proofs are read back from their binary form, whatever follows it
  and from no part of it, if they do not nest too deeply; and nothing else is ever read.
* `json_faithful`: messages and proofs are read back from their JSON text, if they do not nest too
  deeply; and the limit on nested JSON never decides what is read.
-/

namespace SigmaProofs

/-- How deep the messages of a proof nest. -/
def Proof.nesting (proof : Proof) : Nat := max proof.first.nesting proof.second.nesting

/-! ## The binary format -/

/-- A binary format and its reader agree on all values that nest within the limit. Eight bytes have
to suffice for the lengths in what is written. -/
structure BinaryFaithful {α : Type} (write : α → Bytes) (nesting : α → Nat)
    (read : Bytes → Except DecodeFault α) : Prop where
  /-- What is written is read back, whatever follows it, unless it nests too deeply. -/
  read_write (a : α) (hshort : (write a).Short) (rest : Bytes) : read (write a ++ rest) =
    if nesting a ≤ maxNesting then .ok a else .error .nestedTooDeeply
  /-- A part of it is not read. -/
  read_prefix (a : α) (hshort : (write a).Short) {front back : Bytes} (hback : back ≠ [])
    (hparts : front ++ back = write a) : ∃ fault, read front = .error fault
  /-- Whatever is read, from whatever bytes, does not nest too deeply. -/
  nesting_le {bs : Bytes} {a : α} (h : read bs = .ok a) : nesting a ≤ maxNesting

/-- A decoder that gives back what is written, and is sound, cannot read a part of it: it would read
the whole in the same way, and leave something over. -/
theorem binaryFaithful_of {α : Type} {write : α → Bytes} {nesting : α → Nat}
    {d : Decoder UInt8 α}
    (hgives : ∀ a, (write a).Short → ∀ rest,
      d.Gives ⟨write a ++ rest, 0⟩ (nesting a ≤ maxNesting) a ⟨rest, 0⟩)
    (hsound : d.Sound 0 fun a => nesting a ≤ maxNesting) :
    BinaryFaithful write nesting fun bs => (d.run bs).map Prod.fst where
  read_write a hshort rest := by
    rw [(hgives a hshort rest).run]
    split <;> rfl
  read_prefix a hshort front back hback hparts := by
    cases hrun : d.run front with
    | error fault => exact ⟨fault, rfl⟩
    | ok read =>
      obtain ⟨depth, hres⟩ := Decoder.exists_of_run_eq_ok hrun
      obtain ⟨-, -, hmore⟩ := hsound hres
      obtain ⟨hok, hrefused⟩ := hgives a hshort []
      rw [List.append_nil, ← hparts, hmore back] at hok hrefused
      by_cases hfits : nesting a ≤ maxNesting
      · have hrest : read.2 ++ back = [] := congrArg (fun r => r.2.rest) (hok hfits)
        exact absurd (List.append_eq_nil_iff.mp hrest).2 hback
      · cases hrefused hfits
  nesting_le {bs a} h := by
    cases hrun : d.run bs with
    | error fault => simp [hrun, Except.map] at h
    | ok read =>
      obtain ⟨depth, hres⟩ := Decoder.exists_of_run_eq_ok hrun
      obtain rfl : read.1 = a := by simpa [hrun, Except.map] using h
      exact (hsound hres).1

namespace Proof

theorem gives_binary (proof : Proof) (hshort : proof.toBytes.Short) (rest : Bytes) :
    binaryDecoder.Gives ⟨proof.toBytes ++ rest, 0⟩ (proof.nesting ≤ maxNesting) proof
      ⟨rest, 0⟩ := by
  have hfirst := Message.gives (Nat.zero_add maxNesting) hshort.of_append_left
  have hsecond := Message.gives (Nat.zero_add maxNesting) hshort.of_append_right
  rw [toBytes, List.append_assoc]
  refine ((hfirst _).bind fun _ => (hsecond rest).bind_pure (Proof.mk proof.first)).congr ?_
  rw [nesting, Nat.max_le, Nat.zero_add, Nat.zero_add]

theorem sound_binary : binaryDecoder.Sound 0 fun proof => proof.nesting ≤ maxNesting := by
  have hmessage := Message.sound (maxNesting + 1) (Nat.zero_le maxNesting)
  simp only [Nat.zero_add] at hmessage
  exact hmessage.bind fun first hfirst => hmessage.bind fun second hsecond =>
    Decoder.sound_pure (Nat.max_le.mpr ⟨hfirst, hsecond⟩)

end Proof

/-- Messages and proofs are read back from their binary form, whatever follows it, if and only if
they nest within the limit; no part of the form is read; and from no bytes at all is anything read
that nests deeper. -/
theorem binary_faithful : BinaryFaithful Message.toBytes Message.nesting Message.ofBytes ∧
    BinaryFaithful Proof.toBytes Proof.nesting Proof.ofBytes := by
  refine ⟨binaryFaithful_of (fun m hshort rest => ?_) ?_,
    binaryFaithful_of Proof.gives_binary Proof.sound_binary⟩
  · exact (Message.gives (Nat.zero_add maxNesting) hshort rest).congr (by rw [Nat.zero_add])
  · exact (Message.sound (maxNesting + 1) (Nat.zero_le maxNesting)).mono fun m h => by omega

/-! ## The JSON format -/

open Json

/-- A JSON format and its reader agree on all values that nest within the limit. -/
structure JsonFaithful {α : Type} (write : α → List Char) (nesting : α → Nat)
    (read : String → Except DecodeFault α) (decoder : Nat → Decoder Char α) : Prop where
  /-- What is written is read back, unless it nests too deeply. -/
  read_write (a : α) : read (String.ofList (write a)) =
    if nesting a ≤ maxNesting then .ok a else .error .nestedTooDeeply
  /-- On any text at all, the reader does what it does with more room for nested JSON, and what it
  does with less, down to three containers on each level of the messages and four on top. -/
  read_eq (text : String) {room : Nat} (hroom : 3 * maxNesting + 4 ≤ room) :
    read text = readText (decoder room) text
  /-- Whatever is read, from whatever text, is written as a text from which it is read again. -/
  read_write_read {text : String} {a : α} (h : read text = .ok a) :
    read (String.ofList (write a)) = .ok a

theorem readText_eq {α : Type} {d d' : Decoder Char α} {P : α → Prop} (h : d.Alike d' 0 P)
    (text : String) : readText d' text = readText d text := by
  rw [readText, readText, Decoder.run, Decoder.run, (h text.toList).1]

/-- A text that is read whole. -/
theorem readText_gives {α : Type} {d : Decoder Char α} {text : List Char} {fits : Prop}
    [Decidable fits] {a : α} (h : d.Gives ⟨text, 0⟩ fits a ⟨[], 0⟩) :
    readText d (String.ofList text) = if fits then .ok a else .error .nestedTooDeeply := by
  rw [readText, String.toList_ofList, h.run]
  split <;> rfl

/-- What was read is what the decoder gives. -/
theorem read_of_readText {α : Type} {d : Decoder Char α} {text : String} {a : α}
    (h : readText d text = .ok a) : (d ⟨text.toList, 0⟩).1 = .ok a := by
  rw [readText] at h
  cases hrun : d.run text.toList with
  | error fault =>
    rw [hrun] at h
    cases h
  | ok read =>
    obtain ⟨depth, hres⟩ := Decoder.exists_of_run_eq_ok hrun
    rw [hrun] at h
    change (if read.2.all isBlank then .ok read.1 else .error DecodeFault.malformed) =
      Except.ok a at h
    split at h
    · rw [hres, h]
    · cases h

theorem jsonFaithful_of {α : Type} {write : α → List Char} {nesting : α → Nat}
    {decoder : Nat → Decoder Char α}
    (hgives : ∀ a rest, (decoder room₀).Gives ⟨write a ++ rest, 0⟩ (nesting a ≤ maxNesting) a
      ⟨rest, 0⟩)
    (halike : ∀ {room}, 3 * maxNesting + 4 ≤ room →
      (decoder room).Alike (decoder room₀) 0 fun a => nesting a ≤ maxNesting) :
    JsonFaithful write nesting (readText (decoder room₀)) decoder := by
  have hwrite : ∀ a, readText (decoder room₀) (String.ofList (write a)) =
      if nesting a ≤ maxNesting then .ok a else .error .nestedTooDeeply := fun a =>
    readText_gives (by simpa using hgives a [])
  refine ⟨hwrite, fun text room hroom => readText_eq (halike hroom) text, fun {text a} h => ?_⟩
  have hfits : nesting a ≤ maxNesting :=
    (halike (by decide : 3 * maxNesting + 4 ≤ room₀) text.toList).2.2 a (read_of_readText h)
  rw [hwrite, if_pos hfits]

namespace Proof

/-- The messages of a proof as fields. -/
def messageEntry (name : String) (m : Message) : Entry Message :=
  ⟨name, Message.jsonDecoder, m.toJson, m, m.nesting ≤ maxNesting⟩

theorem gives_json (proof : Proof) (rest : List Char) :
    (jsonDecoder room₀).Gives ⟨proof.toJson ++ rest, 0⟩ (proof.nesting ≤ maxNesting) proof
      ⟨rest, 0⟩ := by
  have hfield : ∀ name m, (messageEntry name m).ReadBack 126 0 := fun name m rest =>
    (Message.gives_json (Nat.zero_le maxNesting) (by decide : _ ≤ 123) rest).congr
      (by rw [Nat.zero_add]; rfl)
  have hfields : ∀ f ∈ [messageEntry "first" proof.first, messageEntry "second" proof.second],
      f.ReadBack 126 0 :=
    List.forall_mem_cons.mpr ⟨hfield _ _, List.forall_mem_singleton.mpr (hfield _ _)⟩
  refine ((gives_values (by simp [messageEntry]) hfields rest).bind fun _ =>
    Decoder.gives_of_ok rfl).congr ?_
  rw [List.forall_mem_cons, List.forall_mem_singleton, and_true, nesting, Nat.max_le]
  rfl

theorem alike_json {room : Nat} (hroom : 3 * maxNesting + 4 ≤ room) :
    (jsonDecoder room).Alike (jsonDecoder room₀) 0 fun proof => proof.nesting ≤ maxNesting := by
  obtain ⟨room, rfl⟩ := Nat.exists_eq_add_of_le' (by omega : 4 ≤ room)
  have hmessage : (Message.jsonDecoder (room + 3)).Alike (Message.jsonDecoder (123 + 3)) 0
      fun m => m.nesting ≤ maxNesting :=
    (Message.alike_jsonDecoder (Nat.zero_le maxNesting) (by omega) (by decide)).mono
      fun m h => by rwa [Nat.zero_add] at h
  have hfield : ∀ name, AlikeField (room + 3) 126 0 (fun m : Message => m.nesting ≤ maxNesting)
      (name, Message.jsonDecoder) (name, Message.jsonDecoder) := fun name => ⟨rfl, hmessage⟩
  refine (alike_values (.cons (hfield "first") (.cons (hfield "second") .nil))).bind
    fun ms hms => ?_
  split
  · rename_i first second
    exact Decoder.alike_pure (Nat.max_le.mpr ⟨hms first (by simp), hms second (by simp)⟩)
  · exact Decoder.alike_malformed

end Proof

/-- Messages and proofs are read back from their JSON text if and only if they nest within the
limit, and are refused for their nesting elsewhere; the limit on nested JSON makes no difference to
what is read, from whatever text; and what is read is read again from the text that is written for
it. -/
theorem json_faithful :
    JsonFaithful Message.toJson Message.nesting Message.ofJson Message.jsonDecoder ∧
      JsonFaithful Proof.toJson Proof.nesting Proof.ofJson Proof.jsonDecoder ∧
      DecodeFault.nestedTooDeeply.message? = some "message nesting exceeds 32 levels" := by
  refine ⟨jsonFaithful_of (fun m rest => ?_) fun {room} hroom => ?_,
    jsonFaithful_of Proof.gives_json Proof.alike_json, by decide⟩
  · exact (Message.gives_json (Nat.zero_le maxNesting) (by decide : _ ≤ 124) rest).congr
      (by rw [Nat.zero_add])
  · obtain ⟨room, rfl⟩ := Nat.exists_eq_add_of_le' (by omega : 3 ≤ room)
    exact (Message.alike_jsonDecoder (Nat.zero_le maxNesting) (by omega)
      (by decide : _ ≤ 124)).mono fun m h => by rwa [Nat.zero_add] at h

end SigmaProofs
