/-!
# Prefix-free encodings

* `ToldApart P write a`: what is written for `a` begins nothing that is written for another value
  with the property `P`, whatever follows. `PrefixFree P write`: so it is for all these values.
* `eq_of_flatMap_append`: a list of known length is told apart from all others by its items.
* `PrefixFree.prefix_of_flatMap`: what is written for the items of a list, one after another, tells
  the items, also of a list that goes on; `PrefixFree.eq_of_flatMap` is the case of equal lists.
-/

namespace SigmaProofs

variable {α β : Type} {P : α → Prop} {write : α → List β}

/-- What is written for `a` is not written for any other value with the property, nor does it begin
what is written for one. -/
def ToldApart (P : α → Prop) (write : α → List β) (a : α) : Prop :=
  ∀ ⦃b⦄, P b → ∀ ⦃rest rest'⦄, write a ++ rest = write b ++ rest' → a = b ∧ rest = rest'

/-- All values with the property are told apart by what is written for them. -/
def PrefixFree (P : α → Prop) (write : α → List β) : Prop := ∀ ⦃a⦄, P a → ToldApart P write a

/-- Equal, or one a prefix of the other: the values are the same. -/
theorem PrefixFree.eq_of_isPrefix (h : PrefixFree P write) {a b : α} (ha : P a) (hb : P b)
    (hab : write a <+: write b) : a = b := by
  obtain ⟨rest, hrest⟩ := hab
  have hends : write a ++ rest = write b ++ [] := by rw [hrest, List.append_nil]
  exact (h ha hb hends).1

theorem PrefixFree.inj (h : PrefixFree P write) {a b : α} (ha : P a) (hb : P b)
    (hab : write a = write b) : a = b :=
  (h ha hb (congrArg (· ++ []) hab)).1

/-- The items of a list whose length is known. -/
theorem eq_of_flatMap_append {as bs : List α} (hlen : as.length = bs.length)
    (has : ∀ a ∈ as, ToldApart P write a) (hbs : ∀ b ∈ bs, P b) {rest rest' : List β}
    (h : as.flatMap write ++ rest = bs.flatMap write ++ rest') : as = bs ∧ rest = rest' := by
  induction as generalizing bs with
  | nil =>
    obtain rfl := List.length_eq_zero_iff.mp hlen.symm
    exact ⟨rfl, h⟩
  | cons a as ih =>
    obtain _ | ⟨b, bs⟩ := bs
    · simp at hlen
    obtain ⟨ha, has'⟩ := List.forall_mem_cons.mp has
    obtain ⟨hb, hbs'⟩ := List.forall_mem_cons.mp hbs
    rw [List.flatMap_cons, List.flatMap_cons, List.append_assoc, List.append_assoc] at h
    obtain ⟨hab, h'⟩ := ha hb h
    obtain ⟨hs, hrest⟩ := ih (by simpa using hlen) has' hbs' h'
    exact ⟨by rw [hab, hs], hrest⟩

/-- The items of a list whose length is not known, as far as they are written. -/
theorem PrefixFree.prefix_of_flatMap (h : PrefixFree P write) (hne : ∀ a, write a ≠ [])
    {as bs : List α} (has : ∀ a ∈ as, P a) (hbs : ∀ b ∈ bs, P b)
    (hab : as.flatMap write <+: bs.flatMap write) : as <+: bs := by
  induction as generalizing bs with
  | nil => exact List.nil_prefix
  | cons a as ih =>
    obtain ⟨ha, has'⟩ := List.forall_mem_cons.mp has
    obtain _ | ⟨b, bs⟩ := bs
    · simp [hne] at hab
    obtain ⟨hb, hbs'⟩ := List.forall_mem_cons.mp hbs
    obtain ⟨rest, hrest⟩ := hab
    rw [List.flatMap_cons, List.flatMap_cons, List.append_assoc] at hrest
    obtain ⟨rfl, hrest'⟩ := h ha hb hrest
    exact (List.prefix_cons_inj a).mpr (ih has' hbs' ⟨rest, hrest'⟩)

theorem PrefixFree.eq_of_flatMap (h : PrefixFree P write) (hne : ∀ a, write a ≠ [])
    {as bs : List α} (has : ∀ a ∈ as, P a) (hbs : ∀ b ∈ bs, P b)
    (hab : as.flatMap write = bs.flatMap write) : as = bs := by
  have hle : as <+: bs := h.prefix_of_flatMap hne has hbs ⟨[], by rw [hab, List.append_nil]⟩
  have hge : bs <+: as := h.prefix_of_flatMap hne hbs has ⟨[], by rw [hab, List.append_nil]⟩
  exact hle.eq_of_length_le hge.length_le

end SigmaProofs
