import Mathlib.Data.List.Forall2
import SigmaProofs.Json.Reader
import SigmaProofs.Proofs.Decoding

/-!
# JSON text read with different room

Readers of arrays and objects do the same with more or with less room for containers, if the readers
of their items and fields do and there is room for the container itself (`alike_array`,
`alike_values`, `alike_variant`). What is read has the property that items and values have.
-/

namespace SigmaProofs.Json

open Decoder

variable {α ν : Type} {depth room room' : Nat} {P : α → Prop} {Q : ν → Prop}

theorem alike_peek : Alike peek peek depth fun _ => True := alike_of_keepsDepth fun _ => rfl

theorem alike_advance : Alike advance advance depth fun _ => True :=
  alike_of_keepsDepth fun _ => rfl

theorem alike_rest : Alike (Decoder.rest (ι := Char)) Decoder.rest depth fun _ => True :=
  alike_of_keepsDepth fun _ => rfl

theorem alike_expect (char : Char) : Alike (expect char) (expect char) depth fun _ => True := by
  refine alike_peek.bind fun c _ => ?_
  split
  · exact alike_advance
  · exact alike_malformed

theorem alike_string : Alike string string depth fun _ => True :=
  (alike_expect _).bind fun _ _ => alike_ofRest stringBody

theorem alike_word : Alike word word depth fun _ => True :=
  alike_peek.bind fun _ _ => alike_ofRest _

theorem alike_another (close : Char) (isFirst : Bool) :
    Alike (another close isFirst) (another close isFirst) depth fun _ => True := by
  refine alike_peek.bind fun next _ => ?_
  cases next with
  | none => exact alike_malformed
  | some c =>
    simp only
    split
    · exact alike_pure trivial
    split
    · exact alike_pure trivial
    split
    · refine alike_advance.bind fun _ _ => alike_peek.bind fun next _ => ?_
      cases next with
      | none => exact alike_malformed
      | some c =>
        simp only
        split
        · exact alike_malformed
        · exact alike_pure trivial
    · exact alike_malformed

theorem alike_enter {inside inside' : Nat → Decoder Char α}
    (h : Alike (inside room) (inside' room') depth P) :
    Alike (enter (room + 1) inside) (enter (room' + 1) inside') depth P := h

/-! ## Arrays -/

theorem alike_items {item item' : Decoder Char α} (h : Alike item item' depth P) (fuel : Nat)
    (isFirst : Bool) :
    Alike (items item fuel isFirst) (items item' fuel isFirst) depth fun as => ∀ a ∈ as, P a := by
  induction fuel generalizing isFirst with
  | zero => exact alike_malformed
  | succ fuel ih =>
    refine (alike_another _ isFirst).bind fun more _ => ?_
    cases more with
    | false => exact alike_pure (by simp)
    | true =>
      exact h.bind fun a ha => (ih false).bind fun as has =>
        alike_pure (List.forall_mem_cons.mpr ⟨ha, has⟩)

theorem alike_array {item item' : Nat → Decoder Char α}
    (h : Alike (item room) (item' room') depth P) :
    Alike (array (room + 1) item) (array (room' + 1) item') depth fun as => ∀ a ∈ as, P a :=
  (alike_expect _).bind fun _ _ => alike_enter <| alike_rest.bind fun rest _ =>
    (alike_items h (rest.length + 1) true).bind fun _ has => (alike_expect _).bind fun _ _ =>
      alike_pure has

/-! ## Objects -/

/-- Fields of one name whose values are read alike, and have a property. -/
structure AlikeField (room room' depth : Nat) (Q : ν → Prop) (f f' : FieldReader ν) : Prop where
  name : f'.1 = f.1
  value : Alike (f.2 room) (f'.2 room') depth Q

variable {fields fields' : List (FieldReader ν)}

theorem find?_alike (h : List.Forall₂ (AlikeField room room' depth Q) fields fields')
    (name : String) :
    (fields.find? (·.1 == name) = none ∧ fields'.find? (·.1 == name) = none) ∨
      ∃ f f', fields.find? (·.1 == name) = some f ∧ fields'.find? (·.1 == name) = some f' ∧
        AlikeField room room' depth Q f f' := by
  induction h with
  | nil => exact .inl ⟨rfl, rfl⟩
  | @cons f f' fields fields' hf _ ih =>
    simp only [List.find?_cons, hf.name]
    cases f.1 == name with
    | true => exact .inr ⟨f, f', rfl, rfl, hf⟩
    | false => exact ih

theorem alike_entries (h : List.Forall₂ (AlikeField room room' depth Q) fields fields')
    (unknown : Unknown) (fuel : Nat) (isFirst : Bool) {found : List (String × ν)}
    (hfound : ∀ x ∈ found, Q x.2) :
    Alike (entries fields unknown room fuel isFirst found)
      (entries fields' unknown room' fuel isFirst found) depth fun found => ∀ x ∈ found, Q x.2 := by
  induction fuel generalizing isFirst found with
  | zero => exact alike_malformed
  | succ fuel ih =>
    refine (alike_another _ isFirst).bind fun more _ => ?_
    cases more with
    | false => exact alike_pure hfound
    | true =>
      refine alike_string.bind fun name _ => ?_
      obtain ⟨hnone, hnone'⟩ | ⟨f, f', hsome, hsome', hf⟩ := find?_alike h (String.ofList name)
      · simp only [hnone, hnone']
        split
        · exact alike_malformed
        · exact (alike_expect _).bind fun _ _ => (alike_ofRest _).bind fun _ _ => ih false hfound
      · simp only [hsome, hsome']
        split
        · exact alike_malformed
        · exact (alike_expect _).bind fun _ _ => hf.value.bind fun v hv =>
            ih false (List.forall_mem_cons.mpr ⟨hv, hfound⟩)

theorem alike_columns (h : List.Forall₂ (AlikeField room room' depth Q) fields fields')
    (missing : Missing) (isFirst : Bool) :
    Alike (columns missing room fields isFirst) (columns missing room' fields' isFirst) depth
      fun found => ∀ x ∈ found, Q x.2 := by
  induction h generalizing isFirst with
  | nil => exact alike_pure (by simp)
  | @cons f f' fields fields' hf _ ih =>
    obtain ⟨name, value⟩ := f
    obtain ⟨name', value'⟩ := f'
    obtain rfl : name' = name := hf.name
    refine (alike_another _ isFirst).bind fun more _ => ?_
    cases more with
    | true =>
      exact hf.value.bind fun v hv => (ih false).bind fun found hfound =>
        alike_pure (List.forall_mem_cons.mpr ⟨hv, hfound⟩)
    | false =>
      simp only [Bool.false_eq_true, if_false]
      split
      · exact alike_pure (by simp)
      · exact alike_malformed

theorem any_name_eq (h : List.Forall₂ (AlikeField room room' depth Q) fields fields')
    (p : String → Bool) : fields'.any (fun f => p f.1) = fields.any (fun f => p f.1) := by
  induction h with
  | nil => rfl
  | cons hf _ ih => rw [List.any_cons, List.any_cons, hf.name, ih]

theorem filterMap_name_eq (h : List.Forall₂ (AlikeField room room' depth Q) fields fields')
    (p : String → Option ν) :
    fields'.filterMap (fun f => p f.1) = fields.filterMap (fun f => p f.1) := by
  induction h with
  | nil => rfl
  | cons hf _ ih => rw [List.filterMap_cons, List.filterMap_cons, hf.name, ih]

theorem alike_record (h : List.Forall₂ (AlikeField room room' depth Q) fields fields')
    (unknown : Unknown) (missing : Missing) :
    Alike (record (room + 1) fields unknown missing) (record (room' + 1) fields' unknown missing)
      depth fun found => ∀ x ∈ found, Q x.2 := by
  refine alike_peek.bind fun next _ => ?_
  split
  · exact alike_advance.bind fun _ _ => alike_enter <| (alike_columns h missing true).bind
      fun found hfound => (alike_expect _).bind fun _ _ => alike_pure hfound
  · refine alike_advance.bind fun _ _ => alike_enter <| alike_rest.bind fun rest _ =>
      (alike_entries h unknown (rest.length + 1) true (by simp)).bind
        fun found hfound => (alike_expect _).bind fun _ _ => ?_
    rw [any_name_eq h fun name => !found.any (·.1 == name)]
    split
    · exact alike_malformed
    · exact alike_pure hfound
  · exact alike_malformed

theorem alike_values (h : List.Forall₂ (AlikeField room room' depth Q) fields fields') :
    Alike (values (room + 1) fields) (values (room' + 1) fields') depth
      fun vs => ∀ v ∈ vs, Q v := by
  refine (alike_record h .skipped .refused).bind fun found hfound => ?_
  rw [filterMap_name_eq h fun name => found.lookup name]
  refine alike_pure fun v hv => ?_
  obtain ⟨f, -, hlookup⟩ := List.mem_filterMap.mp hv
  obtain ⟨before, after, rfl, -⟩ := List.lookup_eq_some_iff.mp hlookup
  exact hfound (f.1, v) (List.mem_append_right before List.mem_cons_self)

/-- Readers of the value of an object with one entry. -/
inductive AlikePayload (room room' depth : Nat) (P : α → Prop) :
    Option (Nat → Decoder Char α) → Option (Nat → Decoder Char α) → Prop
  | none : AlikePayload room room' depth P none none
  | some {read read' : Nat → Decoder Char α} (h : Alike (read room) (read' room') depth P) :
      AlikePayload room room' depth P (some read) (some read')

theorem alike_variant {payload payload' : String → Option (Nat → Decoder Char α)}
    (h : ∀ name, AlikePayload room room' depth P (payload name) (payload' name)) :
    Alike (variant (room + 1) payload) (variant (room' + 1) payload') depth P := by
  refine (alike_expect _).bind fun _ _ => alike_enter <| alike_string.bind fun name _ => ?_
  have hpayload := h (String.ofList name)
  revert hpayload
  generalize payload (String.ofList name) = value
  generalize payload' (String.ofList name) = value'
  rintro (_ | hvalue)
  · exact alike_malformed
  · exact (alike_expect _).bind fun _ _ => hvalue.bind fun a ha => (alike_expect _).bind fun _ _ =>
      alike_pure ha

end SigmaProofs.Json
