import SigmaProofs.Json.Reader
import SigmaProofs.Proofs.Moments

/-!
# The count of open containers while JSON text is read

The count is of containers of a message, not of arrays and objects. The readers of JSON text leave it
to the readers of items, fields and values, and as many containers are open at a time as for the
deepest of these.
-/

namespace SigmaProofs.Json

open Decoder

variable {α ν : Type} {R : α → Nat → Prop} {w : ν → Nat}

theorem flat_peek : peek.Flat := IgnoresDepth.followed (fun _ _ => rfl) fun _ => rfl

theorem flat_advance : advance.Flat := IgnoresDepth.followed (fun _ _ => rfl) fun _ => rfl

theorem flat_expect (char : Char) : (expect char).Flat := by
  refine flat_peek.bind fun c => ?_
  split
  · exact flat_advance
  · exact followed_malformed

theorem flat_string : string.Flat := (flat_expect _).bind fun _ => flat_ofRest stringBody

theorem flat_word : word.Flat := flat_peek.bind fun _ => flat_ofRest _

theorem flat_another (close : Char) (isFirst : Bool) : (another close isFirst).Flat := by
  refine flat_peek.bind fun next => ?_
  cases next with
  | none => exact followed_malformed
  | some c =>
    simp only
    split
    · exact followed_pure rfl
    split
    · exact followed_pure rfl
    split
    · refine flat_advance.bind fun _ => flat_peek.bind fun next => ?_
      cases next with
      | none => exact followed_malformed
      | some c =>
        simp only
        split
        · exact followed_malformed
        · exact followed_pure rfl
    · exact followed_malformed

theorem followed_enter {inside : Nat → Decoder Char α} (h : ∀ room, (inside room).Followed R)
    (room : Nat) : (enter room inside).Followed R := by
  cases room with
  | zero => exact followed_malformed
  | succ room => exact h room

/-- The end of a container of the text. -/
theorem followed_close {close : Char} {a : α} {S : α → Nat → Prop} (h : S a 0) :
    (do expect close; return a : Decoder Char α).Followed S :=
  (flat_expect close).bind fun _ => followed_pure h

/-! ## Arrays -/

theorem followed_items {item : Decoder Char ν} (h : item.Followed fun v k => k = w v) (fuel : Nat)
    (isFirst : Bool) : (items item fuel isFirst).Followed fun vs k => k = highest w vs := by
  induction fuel generalizing isFirst with
  | zero => exact followed_malformed
  | succ fuel ih =>
    refine (flat_another _ isFirst).bind fun more => ?_
    cases more with
    | false => exact followed_pure rfl
    | true =>
      refine h.bind fun v k hv => (ih false).bind fun vs k' hvs => followed_pure ?_
      rw [hv, hvs, Nat.max_zero, highest]

theorem followed_array {item : Nat → Decoder Char ν}
    (h : ∀ room, (item room).Followed fun v k => k = w v) (room : Nat) :
    (array room item).Followed fun vs k => k = highest w vs :=
  (flat_expect _).bind fun _ => followed_enter (fun room => flat_rest.bind fun rest =>
    (followed_items (h room) (rest.length + 1) true).bind fun vs k hvs =>
      followed_close (by rwa [Nat.max_zero])) room

theorem flat_array {item : Nat → Decoder Char ν} (h : ∀ room, (item room).Flat) (room : Nat) :
    (array room item).Flat :=
  (followed_array (w := fun _ => 0) h room).mono fun _ _ hk =>
    hk.trans (Nat.le_zero.mp (highest_le fun _ _ => Nat.le_refl 0))

/-! ## Objects -/

variable {fields : List (FieldReader ν)}

/-- The values found belong to different fields. -/
structure OfFields (fields : List (FieldReader ν)) (found : List (String × ν)) : Prop where
  nodup : (found.map (·.1)).Nodup
  named : ∀ x ∈ found, ∃ f ∈ fields, f.1 = x.1

theorem OfFields.cons {found : List (String × ν)} {f : FieldReader ν} {name : String}
    (h : OfFields fields found) (hf : fields.find? (·.1 == name) = some f)
    (hnew : ¬ found.any (·.1 == name) = true) (v : ν) : OfFields fields ((name, v) :: found) where
  nodup := by
    rw [List.map_cons, List.nodup_cons]
    refine ⟨fun hmem => ?_, h.nodup⟩
    obtain ⟨x, hx, hname⟩ := List.mem_map.mp hmem
    exact hnew (List.any_eq_true.mpr ⟨x, hx, beq_iff_eq.mpr hname⟩)
  named := by
    have hname := List.find?_some hf
    exact List.forall_mem_cons.mpr
      ⟨⟨f, List.mem_of_find?_eq_some hf, beq_iff_eq.mp hname⟩, h.named⟩

/-- The values of the fields are those that were found. -/
theorem OfFields.mem_values {found : List (String × ν)} (h : OfFields fields found) {v : ν} :
    v ∈ (fields.filterMap fun f => found.lookup f.1) ↔ ∃ x ∈ found, x.2 = v := by
  rw [List.mem_filterMap]
  constructor
  · rintro ⟨f, -, hlookup⟩
    obtain ⟨before, after, rfl, -⟩ := List.lookup_eq_some_iff.mp hlookup
    exact ⟨(f.1, v), List.mem_append_right before List.mem_cons_self, rfl⟩
  · rintro ⟨x, hx, rfl⟩
    obtain ⟨f, hf, hname⟩ := h.named x hx
    obtain ⟨before, after, rfl⟩ := List.append_of_mem hx
    refine ⟨f, hf, List.lookup_eq_some_iff.mpr ⟨before, after, by rw [hname], fun y hy => ?_⟩⟩
    have hnodup := h.nodup
    rw [List.map_append, List.nodup_append] at hnodup
    rw [hname]
    exact bne_iff_ne.mpr fun heq => hnodup.2.2 _ (List.mem_map_of_mem hy) _
      (by simp) heq.symm

theorem followed_entries (h : ∀ f ∈ fields, ∀ room, (f.2 room).Followed fun v k => k = w v)
    (unknown : Unknown) (room fuel : Nat) (isFirst : Bool) {found : List (String × ν)}
    (hfound : OfFields fields found) :
    (entries fields unknown room fuel isFirst found).Followed fun found' k =>
      OfFields fields found' ∧
        highest (fun x => w x.2) found' = max k (highest (fun x => w x.2) found) := by
  induction fuel generalizing isFirst found with
  | zero => exact followed_malformed
  | succ fuel ih =>
    refine (flat_another _ isFirst).bind fun more => ?_
    cases more with
    | false => exact followed_pure ⟨hfound, (Nat.zero_max _).symm⟩
    | true =>
      refine flat_string.bind fun name => ?_
      cases hfield : fields.find? (·.1 == String.ofList name) with
      | none =>
        simp only [hfield]
        split
        · exact followed_malformed
        · exact (flat_expect _).bind fun _ => (flat_ofRest _).bind fun _ => ih false hfound
      | some f =>
        simp only [hfield]
        split
        · exact followed_malformed
        · rename_i hnew
          refine (flat_expect _).bind fun _ =>
            (h f (List.mem_of_find?_eq_some hfield) room).bind fun v k hv => ?_
          refine (ih false (hfound.cons hfield hnew v)).mono fun found' k' hfound' => ?_
          refine ⟨hfound'.1, ?_⟩
          rw [hfound'.2, highest, hv]
          ac_rfl

theorem followed_columns (h : ∀ f ∈ fields, ∀ room, (f.2 room).Followed fun v k => k = w v)
    (missing : Missing) (room : Nat) (isFirst : Bool) :
    (columns missing room fields isFirst).Followed fun found k =>
      (found.map (·.1)).Sublist (fields.map (·.1)) ∧ k = highest (fun x => w x.2) found := by
  induction fields generalizing isFirst with
  | nil => exact followed_pure ⟨List.Sublist.refl _, rfl⟩
  | cons f fields ih =>
    obtain ⟨hf, hothers⟩ := List.forall_mem_cons.mp h
    refine (flat_another _ isFirst).bind fun more => ?_
    cases more with
    | true =>
      refine (hf room).bind fun v k hv => (ih hothers false).bind fun found k' hfound =>
        followed_pure ⟨hfound.1.cons_cons f.1, ?_⟩
      rw [hv, hfound.2, Nat.max_zero, highest]
    | false =>
      simp only [Bool.false_eq_true, if_false]
      split
      · exact followed_pure ⟨List.nil_sublist _, rfl⟩
      · exact followed_malformed

theorem followed_record (hnames : (fields.map (·.1)).Nodup)
    (h : ∀ f ∈ fields, ∀ room, (f.2 room).Followed fun v k => k = w v) (room : Nat)
    (unknown : Unknown) (missing : Missing) :
    (record room fields unknown missing).Followed fun found k =>
      OfFields fields found ∧ k = highest (fun x => w x.2) found := by
  refine flat_peek.bind fun next => ?_
  split
  · refine flat_advance.bind fun _ => followed_enter (fun room =>
      (followed_columns h missing room true).bind fun found k hfound => followed_close ?_) room
    have hsub := hfound.1
    refine ⟨⟨hsub.nodup hnames, fun x hx => ?_⟩, by rw [Nat.max_zero, hfound.2]⟩
    exact List.mem_map.mp (hsub.subset (List.mem_map_of_mem hx))
  · have hempty : OfFields fields ([] : List (String × ν)) := ⟨List.nodup_nil, by simp⟩
    refine flat_advance.bind fun _ => followed_enter (fun room => flat_rest.bind fun rest =>
      (followed_entries h unknown room (rest.length + 1) true hempty).bind fun found k hfound =>
        (flat_expect _).bind fun _ => ?_) room
    split
    · exact followed_malformed
    · exact followed_pure ⟨hfound.1, hfound.2.symm⟩
  · exact followed_malformed

theorem followed_values (hnames : (fields.map (·.1)).Nodup)
    (h : ∀ f ∈ fields, ∀ room, (f.2 room).Followed fun v k => k = w v) (room : Nat) :
    (values room fields).Followed fun vs k => k = highest w vs := by
  refine (followed_record hnames h room .skipped .refused).bind fun found k hfound =>
    followed_pure ?_
  rw [Nat.max_zero, hfound.2]
  refine Nat.le_antisymm (highest_le fun x hx => ?_) (highest_le fun v hv => ?_)
  · exact le_highest (hfound.1.mem_values.mpr ⟨x, hx, rfl⟩)
  · obtain ⟨x, hx, rfl⟩ := hfound.1.mem_values.mp hv
    exact le_highest (w := fun x : String × ν => w x.2) hx

theorem followed_variant {payload : String → Option (Nat → Decoder Char α)}
    (h : ∀ name, ∀ read ∈ payload name, ∀ room, (read room).Followed R) (room : Nat) :
    (variant room payload).Followed R := by
  refine (flat_expect _).bind fun _ => followed_enter (fun room =>
    flat_string.bind fun name => ?_) room
  cases hpayload : payload (String.ofList name) with
  | none => exact followed_malformed
  | some read =>
    exact (flat_expect _).bind fun _ => (h _ read hpayload room).bind fun a k ha =>
      followed_close (by rwa [Nat.max_zero])

end SigmaProofs.Json
