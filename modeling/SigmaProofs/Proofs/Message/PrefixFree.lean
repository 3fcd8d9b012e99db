import SigmaProofs.Proofs.Message.Binary
import SigmaProofs.Proofs.PrefixFree

/-!
# The binary forms of messages are told apart

Counts and the index of the form tell where each part of a message ends, so that no binary form
begins another (`Message.prefixFree_toBytes`), however deep the messages nest. A message that nests
too deeply is not read, but its bytes belong to it alone.
-/

namespace SigmaProofs

/-- Numbers of a fixed width. -/
theorem prefixFree_littleEndian (k : Nat) : PrefixFree (· < 256 ^ k) (littleEndian k) := by
  intro m hm n hn rest rest' h
  obtain ⟨hmn, hrest⟩ := List.append_inj h (by rw [littleEndian_length, littleEndian_length])
  exact ⟨by rw [← ofLittleEndian_littleEndian hm, hmn, ofLittleEndian_littleEndian hn], hrest⟩

/-! ## The parts of a message -/

namespace Binary

variable {α γ : Type} {write : α → Bytes} {write' : γ → Bytes}

/-- The value is told apart from all whose binary form is short enough for its lengths. -/
abbrev Unambiguous (write : α → Bytes) (a : α) : Prop :=
  ToldApart (fun b => (write b).Short) write a

theorem Unambiguous.pair {a : α} {c : γ} (ha : Unambiguous write a) (hc : Unambiguous write' c) :
    Unambiguous (fun x : α × γ => write x.1 ++ write' x.2) (a, c) := by
  intro x hx rest rest' h
  rw [List.append_assoc, List.append_assoc] at h
  obtain ⟨hfst, h'⟩ := ha hx.of_append_left h
  obtain ⟨hsnd, hrest⟩ := hc hx.of_append_right h'
  exact ⟨Prod.ext hfst hsnd, hrest⟩

theorem unambiguous_bytes {bs : Bytes} (h : (writeBytes bs).Short) :
    Unambiguous writeBytes bs := by
  intro bs' h' rest rest' heq
  rw [writeBytes, writeBytes, List.append_assoc, List.append_assoc] at heq
  obtain ⟨hlen, heq'⟩ := prefixFree_littleEndian 8 h.of_append_right h'.of_append_right heq
  exact List.append_inj heq' hlen

/-- A list is told apart by its length and its items. -/
theorem unambiguous_list (hpos : ∀ a, write a ≠ []) {as : List α}
    (hshort : Bytes.Short (writeLength as.length ++ as.flatMap write))
    (h : ∀ a ∈ as, (write a).Short → Unambiguous write a) :
    Unambiguous (fun bs : List α => writeLength bs.length ++ bs.flatMap write) as := by
  intro bs hbs rest rest' heq
  have hlt : ∀ {cs : List α}, Bytes.Short (writeLength cs.length ++ cs.flatMap write) →
      cs.length < 2 ^ (64 : Nat) := fun hcs =>
    Nat.lt_of_le_of_lt (length_le_length_flatMap hpos _) hcs.of_append_right
  simp only [List.append_assoc] at heq
  obtain ⟨hlen, heq'⟩ := prefixFree_littleEndian 8 (hlt hshort) (hlt hbs) heq
  exact eq_of_flatMap_append hlen (fun a ha => h a ha (hshort.of_append_right.of_mem ha))
    (fun b hb => hbs.of_append_right.of_mem hb) heq'

theorem unambiguous_integer {n : Nat} (h : (writeInteger n).Short) :
    Unambiguous writeInteger n := by
  intro k hk rest rest' heq
  have hlt : ∀ {k : Nat}, (writeInteger k).Short → (words k).length < 2 ^ (64 : Nat) := fun hk =>
    Nat.lt_of_le_of_lt (length_le_length_flatMap writeWord_ne_nil _) hk.of_append_right
  rw [writeInteger, writeInteger, List.append_assoc, List.append_assoc] at heq
  obtain ⟨hlen, heq'⟩ := prefixFree_littleEndian 8 (hlt h) (hlt hk) heq
  obtain ⟨hwords, hrest⟩ := eq_of_flatMap_append hlen
    (fun w hw => prefixFree_littleEndian 4 (digits_lt hw)) (fun w hw => digits_lt hw) heq'
  have hofWords : ∀ k, ofWords (words k) = k := ofDigits_digits (by decide)
  exact ⟨by rw [← hofWords n, hwords, hofWords k], hrest⟩

end Binary

/-! ## Messages -/

namespace Message

open Binary

/-- Messages of different forms begin with different indices. -/
theorem index_eq_of_append {m m' : Message} {rest rest' : Bytes}
    (h : m.toBytes ++ rest = m'.toBytes ++ rest') : m.index = m'.index := by
  have hlt : ∀ m : Message, m.index < 256 ^ 4 := fun m => by cases m <;> simp [index]
  obtain ⟨fields, hfields⟩ := m.exists_toBytes_eq
  obtain ⟨fields', hfields'⟩ := m'.exists_toBytes_eq
  rw [hfields, hfields', List.append_assoc, List.append_assoc] at h
  exact (prefixFree_littleEndian 4 (hlt m) (hlt m') h).1

/-- A message is told apart if its fields are told apart among the messages of its form. -/
theorem unambiguous_of_fields {α : Type} {f : α → Message} {write : α → Bytes} {a : α} {i : Nat}
    (ha : Unambiguous write a) (hwrite : ∀ b, (f b).toBytes = writeWord i ++ write b)
    (hform : ∀ m : Message, m.index = i ↔ ∃ b, m = f b) : Unambiguous toBytes (f a) := by
  intro m hm rest rest' h
  obtain ⟨b, rfl⟩ := (hform m).mp ((index_eq_of_append h).symm.trans ((hform (f a)).mpr ⟨a, rfl⟩))
  simp only [hwrite, List.append_assoc] at h hm
  obtain ⟨rfl, hrest⟩ := ha hm.of_append_right (List.append_cancel_left h)
  exact ⟨rfl, hrest⟩

/-- The messages in a container are told apart if each of them is. -/
theorem unambiguous_contained {ms : List Message}
    (hshort : Bytes.Short (writeLength ms.length ++ toBytesAll ms))
    (h : ∀ m ∈ ms, m.toBytes.Short → Unambiguous toBytes m) :
    Unambiguous (fun ms => writeLength ms.length ++ toBytesAll ms) ms := by
  simp only [toBytesAll_eq] at hshort ⊢
  exact unambiguous_list toBytes_ne_nil hshort h

/-- No binary form of a message begins another. -/
theorem prefixFree_toBytes : PrefixFree (fun m => m.toBytes.Short) toBytes := by
  intro m
  induction m with
  | element encoding =>
    intro hm
    exact unambiguous_of_fields (unambiguous_bytes hm.of_append_right) (fun _ => rfl)
      fun m => by cases m <;> simp [index]
  | integer value =>
    intro hm
    exact unambiguous_of_fields (unambiguous_integer hm.of_append_right) (fun _ => rfl)
      fun m => by cases m <;> simp [index]
  | elementPair a b =>
    intro hm
    rw [toBytes, List.append_assoc] at hm
    have h := hm.of_append_right
    have hfields := (unambiguous_bytes h.of_append_left).pair (unambiguous_bytes h.of_append_right)
    exact unambiguous_of_fields (a := (a, b)) (f := fun x : Bytes × Bytes => elementPair x.1 x.2)
      hfields (fun x => List.append_assoc ..) fun m => by cases m <;> simp [index]
  | opening u v =>
    intro hm
    rw [toBytes, List.append_assoc] at hm
    have h := hm.of_append_right
    have hfields :=
      (unambiguous_integer h.of_append_left).pair (unambiguous_integer h.of_append_right)
    exact unambiguous_of_fields (a := (u, v)) (f := fun x : Nat × Nat => opening x.1 x.2) hfields
      (fun x => List.append_assoc ..) fun m => by cases m <;> simp [index]
  | productCommitment a1 a2 =>
    intro hm
    rw [toBytes, List.append_assoc] at hm
    have h := hm.of_append_right
    have hfields :=
      (unambiguous_integer h.of_append_left).pair (unambiguous_integer h.of_append_right)
    exact unambiguous_of_fields (a := (a1, a2))
      (f := fun x : Nat × Nat => productCommitment x.1 x.2) hfields
      (fun x => List.append_assoc ..) fun m => by cases m <;> simp [index]
  | productResponse z1 z2 z3 =>
    intro hm
    have hwrite : ∀ y1 y2 y3, (productResponse y1 y2 y3).toBytes =
        writeWord 5 ++ (writeInteger y1 ++ (writeInteger y2 ++ writeInteger y3)) :=
      fun y1 y2 y3 => by rw [toBytes, List.append_assoc, List.append_assoc]
    rw [hwrite] at hm
    have h := hm.of_append_right
    have h' := h.of_append_right
    have hfields := (unambiguous_integer h.of_append_left).pair
      ((unambiguous_integer h'.of_append_left).pair (unambiguous_integer h'.of_append_right))
    exact unambiguous_of_fields (a := (z1, z2, z3))
      (f := fun x : Nat × Nat × Nat => productResponse x.1 x.2.1 x.2.2) hfields (fun x => hwrite ..)
      fun m => by cases m <;> simp [index]
  | multiple parts ih =>
    intro hm
    rw [toBytes, List.append_assoc] at hm
    exact unambiguous_of_fields
      (unambiguous_contained hm.of_append_right fun m hm hshort => ih m hm hshort)
      (fun x => List.append_assoc ..) fun m => by cases m <;> simp [index]
  | orResponse challenges responses ih =>
    intro hm
    have hwrite : ∀ (cs : List Bytes) (ms : List Message), (orResponse cs ms).toBytes =
        writeWord 7 ++ ((writeLength cs.length ++ cs.flatMap writeBytes) ++
          (writeLength ms.length ++ toBytesAll ms)) := fun cs ms => by simp [toBytes]
    rw [hwrite] at hm
    have h := hm.of_append_right
    have hfields := (unambiguous_list writeBytes_ne_nil h.of_append_left
      fun c _ hc => unambiguous_bytes hc).pair
        (unambiguous_contained h.of_append_right fun m hm hshort => ih m hm hshort)
    exact unambiguous_of_fields (a := (challenges, responses))
      (f := fun x : List Bytes × List Message => orResponse x.1 x.2) hfields (fun x => hwrite ..)
      fun m => by cases m <;> simp [index]

end Message

end SigmaProofs
