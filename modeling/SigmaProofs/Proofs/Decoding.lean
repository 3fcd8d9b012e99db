import SigmaProofs.Decoding

/-!
# What decoders read

* `Decoder.Reads d depth input a`: in front of whatever follows, `d` reads the input as `a` and
  leaves as many containers open as there were.
* `Decoder.Gives d c fits a c'`: so it is from the cursor `c` to the cursor `c'` for a value that
  fits; one that does not is refused for its nesting.
* `Decoder.Sound d depth P`: whatever is read, from whatever input, has the property `P`, and is
  read as well if more follows.
* `Decoder.Alike d d' depth P`: both decoders do the same on every input, and whatever is read has
  the property `P`.

The rules for each of them follow the combinators of decoders (`bind`, `times`, `inContainer`).
-/

namespace SigmaProofs.Decoder

variable {ι α β : Type} {depth : Nat} {input input' : List ι} {a : α} {b : β}

/-! ## Values that are read back -/

/-- The decoder reads the input as `a`, and nothing of what follows it. -/
def Reads (d : Decoder ι α) (depth : Nat) (input : List ι) (a : α) : Prop :=
  ∀ rest, d ⟨input ++ rest, depth⟩ = (.ok a, ⟨rest, depth⟩)

theorem reads_pure (a : α) : (pure a : Decoder ι α).Reads depth [] a := fun _ => rfl

theorem bind_of_ok {d : Decoder ι α} {f : α → Decoder ι β} {c c' : Cursor ι}
    (hd : d c = (.ok a, c')) : (d >>= f) c = f a c' := by
  show Decoder.bind d f c = _
  rw [Decoder.bind, hd]

theorem bind_of_error {d : Decoder ι α} {f : α → Decoder ι β} {c c' : Cursor ι}
    {fault : DecodeFault} (hd : d c = (.error fault, c')) : (d >>= f) c = (.error fault, c') := by
  show Decoder.bind d f c = _
  rw [Decoder.bind, hd]

theorem exists_of_bind_eq_ok {d : Decoder ι α} {f : α → Decoder ι β} {c c' : Cursor ι}
    (h : (d >>= f) c = (.ok b, c')) : ∃ a c₁, d c = (.ok a, c₁) ∧ f a c₁ = (.ok b, c') := by
  rcases hres : d c with ⟨fault | a, c₁⟩
  · rw [bind_of_error hres] at h
    cases h
  · rw [bind_of_ok hres] at h
    exact ⟨a, c₁, rfl, h⟩

theorem bind_assoc {γ : Type} (d : Decoder ι α) (f : α → Decoder ι β) (g : β → Decoder ι γ) :
    (d >>= f) >>= g = d >>= fun a => f a >>= g := by
  funext c
  show Decoder.bind (Decoder.bind d f) g c = Decoder.bind d (fun a => Decoder.bind (f a) g) c
  unfold Decoder.bind
  rcases d c with ⟨_ | a, c'⟩ <;> rfl

theorem rest_eq (c : Cursor ι) : Decoder.rest c = (.ok c.rest, c) := rfl

theorem Reads.bind {d : Decoder ι α} {f : α → Decoder ι β} (hd : d.Reads depth input a)
    (hf : (f a).Reads depth input' b) : (d >>= f).Reads depth (input ++ input') b := by
  intro rest
  rw [List.append_assoc, bind_of_ok (hd _)]
  exact hf rest

/-- Nothing is read after the last part. -/
theorem Reads.bind_pure {d : Decoder ι α} {f : α → β} (hd : d.Reads depth input a) :
    (do return f (← d)).Reads depth input (f a) := by
  rw [← List.append_nil input]
  exact hd.bind (reads_pure (f a))

theorem Reads.map {d : Decoder ι α} (hd : d.Reads depth input a) (f : α → β) :
    (f <$> d).Reads depth input (f a) :=
  hd.bind_pure

theorem Reads.times {d : Decoder ι α} {write : α → List ι} {as : List α}
    (h : ∀ a ∈ as, d.Reads depth (write a) a) :
    (d.times as.length).Reads depth (as.flatMap write) as := by
  induction as with
  | nil => exact reads_pure []
  | cons a as ih =>
    obtain ⟨ha, has⟩ := List.forall_mem_cons.mp h
    exact ha.bind (ih has).bind_pure

/-! ## Values that may nest too deeply -/

/-- From the cursor `c`, the decoder reads `a` and stops at `c'`, if the value fits. Otherwise it
refuses the value for its nesting. -/
structure Gives (d : Decoder ι α) (c : Cursor ι) (fits : Prop) (a : α) (c' : Cursor ι) : Prop where
  ok (h : fits) : d c = (.ok a, c')
  refused (h : ¬ fits) : (d c).1 = .error .nestedTooDeeply

variable {c c' c'' : Cursor ι} {fits fits' : Prop}

theorem gives_of_ok {d : Decoder ι α} (h : d c = (.ok a, c')) : d.Gives c True a c' where
  ok _ := h
  refused hno := absurd trivial hno

theorem Reads.gives {d : Decoder ι α} (h : d.Reads depth input a) (rest : List ι) :
    d.Gives ⟨input ++ rest, depth⟩ True a ⟨rest, depth⟩ :=
  gives_of_ok (h rest)

theorem Gives.congr {d : Decoder ι α} (h : d.Gives c fits a c') (hiff : fits ↔ fits') :
    d.Gives c fits' a c' :=
  propext hiff ▸ h

theorem Gives.bind {d : Decoder ι α} {f : α → Decoder ι β} (hd : d.Gives c fits a c')
    (hf : fits → (f a).Gives c' fits' b c'') : (d >>= f).Gives c (fits ∧ fits') b c'' where
  ok h := by
    rw [bind_of_ok (hd.ok h.1)]
    exact (hf h.1).ok h.2
  refused hno := by
    by_cases h : fits
    · rw [bind_of_ok (hd.ok h)]
      exact (hf h).refused fun h' => hno ⟨h, h'⟩
    · have herr := hd.refused h
      show (Decoder.bind d f c).1 = _
      rcases hres : d c with ⟨_ | _, c₁⟩
      · rw [hres] at herr
        rw [Decoder.bind, hres]
        exact congrArg _ (Except.error.inj herr)
      · rw [hres] at herr
        cases herr

/-- A part that is always read. -/
theorem Gives.after {d : Decoder ι α} {f : α → Decoder ι β} (hd : d c = (.ok a, c'))
    (hf : (f a).Gives c' fits b c'') : (d >>= f).Gives c fits b c'' :=
  ((gives_of_ok hd).bind fun _ => hf).congr (by rw [true_and])

/-- Nothing is read after the last part. -/
theorem Gives.bind_pure {d : Decoder ι α} (hd : d.Gives c fits a c') (f : α → β) :
    (do return f (← d)).Gives c fits (f a) c' :=
  (hd.bind fun _ => gives_of_ok (c := c') rfl).congr (by rw [and_true])

theorem Gives.map {d : Decoder ι α} (hd : d.Gives c fits a c') (f : α → β) :
    (f <$> d).Gives c fits (f a) c' :=
  hd.bind_pure f

theorem Gives.times {d : Decoder ι α} {write : α → List ι} {P : α → Prop} {as : List α}
    (h : ∀ a ∈ as, ∀ rest, d.Gives ⟨write a ++ rest, depth⟩ (P a) a ⟨rest, depth⟩)
    (rest : List ι) : (d.times as.length).Gives ⟨as.flatMap write ++ rest, depth⟩ (∀ a ∈ as, P a) as
      ⟨rest, depth⟩ := by
  induction as with
  | nil => exact (gives_of_ok rfl).congr (by simp)
  | cons a as ih =>
    obtain ⟨ha, has⟩ := List.forall_mem_cons.mp h
    rw [List.flatMap_cons, List.append_assoc]
    exact ((ha _).bind fun _ => (ih has).bind_pure (a :: ·)).congr List.forall_mem_cons.symm

/-- A container is refused where no more may be opened, and read one level deeper elsewhere. -/
theorem Gives.inContainer {d : Decoder ι α}
    (hd : depth < maxNesting → d.Gives ⟨input, depth + 1⟩ fits a ⟨input', depth + 1⟩) :
    d.inContainer.Gives ⟨input, depth⟩ (depth < maxNesting ∧ fits) a ⟨input', depth⟩ where
  ok h := by
    rw [Decoder.inContainer, if_neg (Nat.not_le_of_lt h.1), (hd h.1).ok h.2]
    rfl
  refused hno := by
    unfold Decoder.inContainer
    split
    · rfl
    · rename_i hdepth
      have hdepth' := Nat.lt_of_not_le hdepth
      exact (hd hdepth').refused fun h => hno ⟨hdepth', h⟩

/-- A value at the start of an input. -/
theorem Gives.run {d : Decoder ι α} {rest : List ι} [Decidable fits]
    (h : d.Gives ⟨input, 0⟩ fits a ⟨rest, 0⟩) :
    d.run input = if fits then .ok (a, rest) else .error .nestedTooDeeply := by
  rw [Decoder.run]
  by_cases hfits : fits
  · rw [if_pos hfits, h.ok hfits]
  · have herr := h.refused hfits
    rcases hres : d ⟨input, 0⟩ with ⟨_ | _, c⟩ <;> rw [hres] at herr <;> cases herr
    rw [if_neg hfits]

theorem exists_of_run_eq_ok {d : Decoder ι α} {rest : List ι} (h : d.run input = .ok (a, rest)) :
    ∃ depth, d ⟨input, 0⟩ = (.ok a, ⟨rest, depth⟩) := by
  rw [Decoder.run] at h
  rcases hres : d ⟨input, 0⟩ with ⟨_ | _, c⟩ <;> rw [hres] at h <;> cases h
  exact ⟨c.depth, rfl⟩

/-! ## Whatever is read -/

/-- Every value that is read has the property, and is read as well if more follows. -/
def Sound (d : Decoder ι α) (depth : Nat) (P : α → Prop) : Prop :=
  ∀ ⦃input a c⦄, d ⟨input, depth⟩ = (.ok a, c) → P a ∧ c.depth = depth ∧
    ∀ more, d ⟨input ++ more, depth⟩ = (.ok a, ⟨c.rest ++ more, depth⟩)

variable {P : α → Prop} {Q : β → Prop}

theorem sound_pure (h : P a) : (pure a : Decoder ι α).Sound depth P := by
  rintro input _ _ ⟨⟩
  exact ⟨h, rfl, fun _ => rfl⟩

theorem sound_malformed : (malformed : Decoder ι α).Sound depth P := by
  rintro input _ _ ⟨⟩

theorem Sound.bind {d : Decoder ι α} {f : α → Decoder ι β} (hd : d.Sound depth P)
    (hf : ∀ a, P a → (f a).Sound depth Q) : (d >>= f).Sound depth Q := by
  intro input b c h
  rcases hres : d ⟨input, depth⟩ with ⟨_ | a, c₁⟩
  · simp [Bind.bind, Decoder.bind, hres] at h
  · obtain ⟨ha, rfl, hmore⟩ := hd hres
    rw [bind_of_ok hres] at h
    obtain ⟨hb, hdepth, hmore'⟩ := hf a ha h
    exact ⟨hb, hdepth, fun more => (bind_of_ok (hmore more)).trans (hmore' more)⟩

theorem Sound.mono {d : Decoder ι α} {P' : α → Prop} (hd : d.Sound depth P)
    (h : ∀ a, P a → P' a) : d.Sound depth P' := by
  intro input a c hres
  obtain ⟨ha, hrest⟩ := hd hres
  exact ⟨h a ha, hrest⟩

theorem Sound.map {d : Decoder ι α} {f : α → β} (hd : d.Sound depth fun a => Q (f a)) :
    (f <$> d).Sound depth Q :=
  hd.bind fun _ ha => sound_pure ha

theorem Sound.times {d : Decoder ι α} (hd : d.Sound depth P) (n : Nat) :
    (d.times n).Sound depth fun as => ∀ a ∈ as, P a := by
  induction n with
  | zero => exact sound_pure (by simp)
  | succ n ih =>
    exact hd.bind fun a ha => ih.bind fun as has => sound_pure (List.forall_mem_cons.mpr ⟨ha, has⟩)

theorem Sound.inContainer {d : Decoder ι α} (hd : depth < maxNesting → d.Sound (depth + 1) P) :
    d.inContainer.Sound depth fun a => depth < maxNesting ∧ P a := by
  intro input a c h
  by_cases hdepth : depth < maxNesting
  · have hopen : ¬ maxNesting ≤ depth := Nat.not_le_of_lt hdepth
    rcases hres : d ⟨input, depth + 1⟩ with ⟨_ | a', c₁⟩
    · simp [Decoder.inContainer, hopen, hres] at h
    · simp only [Decoder.inContainer, hopen, if_false, hres, Prod.mk.injEq, Except.ok.injEq] at h
      obtain ⟨rfl, rfl⟩ := h
      obtain ⟨ha, hclosed, hmore⟩ := hd hdepth hres
      refine ⟨⟨hdepth, ha⟩, by simp [hclosed], fun more => ?_⟩
      simp [Decoder.inContainer, hopen, hmore more]
  · simp [Decoder.inContainer, Nat.le_of_not_lt hdepth] at h

/-! ## Decoders that do the same -/

/-- Where `depth` containers are open, both decoders do the same. They leave as many containers
open, and every value that is read has the property. -/
def Alike (d d' : Decoder ι α) (depth : Nat) (P : α → Prop) : Prop :=
  ∀ rest, d' ⟨rest, depth⟩ = d ⟨rest, depth⟩ ∧ (d ⟨rest, depth⟩).2.depth = depth ∧
    ∀ a, (d ⟨rest, depth⟩).1 = .ok a → P a

variable {d d' : Decoder ι α} {f f' : α → Decoder ι β}

theorem alike_of_keepsDepth (h : ∀ rest, (d ⟨rest, depth⟩).2.depth = depth) :
    Alike d d depth fun _ => True :=
  fun rest => ⟨rfl, h rest, fun _ _ => trivial⟩

theorem alike_pure (h : P a) : Alike (pure a : Decoder ι α) (pure a) depth P := by
  refine fun rest => ⟨rfl, rfl, ?_⟩
  rintro _ ⟨⟩
  exact h

theorem alike_malformed : Alike (malformed : Decoder ι α) malformed depth P := by
  refine fun rest => ⟨rfl, rfl, ?_⟩
  rintro _ ⟨⟩

theorem alike_ofRest (read : List ι → Option (α × List ι)) :
    Alike (ofRest read) (ofRest read) depth fun _ => True :=
  alike_of_keepsDepth fun rest => by
    unfold ofRest
    split <;> rfl

theorem alike_ofOption (value : Option α) :
    Alike (ofOption value : Decoder ι α) (ofOption value) depth fun _ => True := by
  cases value with
  | none => exact alike_malformed
  | some a => exact alike_pure trivial

theorem Alike.mono {P' : α → Prop} (h : Alike d d' depth P) (hP : ∀ a, P a → P' a) :
    Alike d d' depth P' :=
  fun rest => ⟨(h rest).1, (h rest).2.1, fun a ha => hP a ((h rest).2.2 a ha)⟩

theorem Alike.bind (hd : Alike d d' depth P) (hf : ∀ a, P a → Alike (f a) (f' a) depth Q) :
    Alike (d >>= f) (d' >>= f') depth Q := by
  intro rest
  obtain ⟨heq, hdepth, hP⟩ := hd rest
  rcases hres : d ⟨rest, depth⟩ with ⟨fault | a, ⟨rest', depth'⟩⟩
  · have herr : ∀ {g : Decoder ι α} {k : α → Decoder ι β}, g ⟨rest, depth⟩ = d ⟨rest, depth⟩ →
        (g >>= k) ⟨rest, depth⟩ = (.error fault, ⟨rest', depth'⟩) := fun {g k} hg => by
      show Decoder.bind g k _ = _
      rw [Decoder.bind, hg, hres]
    rw [herr heq, herr rfl]
    rw [hres] at hdepth
    exact ⟨rfl, hdepth, by rintro _ ⟨⟩⟩
  · rw [hres] at hdepth
    obtain rfl : depth' = depth := hdepth
    rw [bind_of_ok hres, bind_of_ok (heq.trans hres)]
    exact hf a (hP a (by rw [hres])) rest'

theorem Alike.map {k : α → β} (hd : Alike d d' depth fun a => Q (k a)) :
    Alike (k <$> d) (k <$> d') depth Q :=
  hd.bind fun _ ha => alike_pure ha

theorem Alike.inContainer (hd : depth < maxNesting → Alike d d' (depth + 1) P) :
    Alike d.inContainer d'.inContainer depth fun a => depth < maxNesting ∧ P a := by
  intro rest
  unfold Decoder.inContainer
  by_cases hdepth : depth < maxNesting
  · obtain ⟨heq, hkeeps, hP⟩ := hd hdepth rest
    simp only [if_neg (Nat.not_le_of_lt hdepth), heq]
    exact ⟨trivial, by rw [hkeeps]; rfl, fun a ha => ⟨hdepth, hP a ha⟩⟩
  · simp only [if_pos (Nat.le_of_not_lt hdepth)]
    exact ⟨trivial, trivial, by rintro _ ⟨⟩⟩

end SigmaProofs.Decoder
