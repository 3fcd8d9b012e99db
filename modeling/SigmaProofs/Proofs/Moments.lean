import SigmaProofs.Message
import SigmaProofs.Proofs.Decoding

/-!
# The count of open containers at every moment

The containers of a message are the lists of messages in it: the parts of a message of several, and
the responses of an OR composition. While an input is read, a thread counts the containers that are
open.

* `Decoder.Passes d enclosing c moments`: inside the containers `enclosing`, the run of `d` from the
  cursor `c` passes through the moments. Outside of the places where a container is opened or
  closed, it consists of readers that have nothing to do with the count (`IgnoresDepth`).
* `Decoder.Passes.counted`: if the count is right in the beginning, it is at every moment, and it
  is the same in the end, however the run ends.
* `Decoder.Followed d R`: every run of `d` can be taken apart in this way, and if it gives `a` and had
  up to `k` containers open, then `R a k` holds. There is one rule for each combinator.
-/

namespace SigmaProofs

/-- What is done next with the count of open containers. -/
inductive CountStep where
  /-- It is left alone, while symbols are read, or the reader gives up. -/
  | keeps
  /-- It is incremented, as a container is opened. -/
  | opens
  /-- It stands at the limit, and the container is refused. -/
  | refuses
  /-- It is decremented, as the innermost container is closed. -/
  | closes
deriving DecidableEq

/-- A point of a run. -/
structure Moment where
  step : CountStep
  /-- The containers around it, the innermost first. Each of them is given by how many symbols were
  left where it was opened. -/
  enclosing : List Nat
  /-- The count at this point, before the step. -/
  count : Nat

/-- How many containers are around. -/
def Moment.depth (m : Moment) : Nat := m.enclosing.length

/-- The count is the number of the containers around, within its bounds before and after the
step. -/
structure Moment.Counted (m : Moment) : Prop where
  count_eq : m.count = m.depth
  count_le : m.count ≤ maxNesting
  opens (h : m.step = .opens) : m.count < maxNesting
  refuses (h : m.step = .refuses) : m.count = maxNesting
  closes (h : m.step = .closes) : 0 < m.count

/-! ## The highest of several numbers -/

section

variable {α β : Type} {w : α → Nat}

/-- The highest of the numbers that belong to some values, and 0 for none. -/
def highest (w : α → Nat) : List α → Nat
  | [] => 0
  | a :: as => max (w a) (highest w as)

theorem highest_append (as as' : List α) :
    highest w (as ++ as') = max (highest w as) (highest w as') := by
  induction as with
  | nil => exact (Nat.zero_max _).symm
  | cons a as ih => rw [List.cons_append, highest, highest, ih, Nat.max_assoc]

theorem le_highest {as : List α} {a : α} (h : a ∈ as) : w a ≤ highest w as := by
  induction h with
  | head => exact Nat.le_max_left _ _
  | tail _ _ ih => exact Nat.le_trans ih (Nat.le_max_right _ _)

theorem highest_le {as : List α} {n : Nat} (h : ∀ a ∈ as, w a ≤ n) : highest w as ≤ n := by
  induction as with
  | nil => exact Nat.zero_le n
  | cons a as ih =>
    obtain ⟨ha, has⟩ := List.forall_mem_cons.mp h
    exact Nat.max_le.mpr ⟨ha, ih has⟩

theorem highest_nesting (ms : List Message) : highest Message.nesting ms = Message.nestingAll ms := by
  induction ms with
  | nil => rfl
  | cons m ms ih => rw [highest, ih, Message.nestingAll]

end

namespace Decoder

variable {ι α β : Type} {d : Decoder ι α} {f : α → Decoder ι β}

/-- The reader neither looks at the count of open containers nor changes it. -/
def IgnoresDepth (d : Decoder ι α) : Prop :=
  ∀ rest depth, d ⟨rest, depth⟩ = ((d ⟨rest, 0⟩).1, ⟨(d ⟨rest, 0⟩).2.rest, depth⟩)

/-- Inside the containers `enclosing`, the run of the decoder from a cursor passes through the
moments. Containers are lists of messages; they are closed whatever their reader gave. -/
inductive Passes {ι : Type} :
    {α : Type} → Decoder ι α → List Nat → Cursor ι → List Moment → Prop
  | keeps {α : Type} {d : Decoder ι α} (hd : d.IgnoresDepth) (enclosing : List Nat)
      (c : Cursor ι) : Passes d enclosing c [⟨.keeps, enclosing, c.depth⟩]
  | failed {α β : Type} {d : Decoder ι α} {f : α → Decoder ι β} {enclosing : List Nat}
      {c c' : Cursor ι} {moments : List Moment} {fault : DecodeFault}
      (hd : Passes d enclosing c moments) (h : d c = (.error fault, c')) :
      Passes (d >>= f) enclosing c moments
  | bound {α β : Type} {d : Decoder ι α} {f : α → Decoder ι β} {enclosing : List Nat}
      {c c' : Cursor ι} {moments moments' : List Moment} {a : α}
      (hd : Passes d enclosing c moments) (h : d c = (.ok a, c'))
      (hf : Passes (f a) enclosing c' moments') :
      Passes (d >>= f) enclosing c (moments ++ moments')
  | refused {d : Decoder ι (List Message)} {enclosing : List Nat} {c : Cursor ι}
      (h : maxNesting ≤ c.depth) :
      Passes d.inContainer enclosing c [⟨.refuses, enclosing, c.depth⟩]
  | contained {d : Decoder ι (List Message)} {enclosing : List Nat} {c : Cursor ι}
      {moments : List Moment} (h : c.depth < maxNesting)
      (hd : Passes d (c.rest.length :: enclosing) ⟨c.rest, c.depth + 1⟩ moments) :
      Passes d.inContainer enclosing c
        (⟨.opens, enclosing, c.depth⟩ :: (moments ++
          [⟨.closes, c.rest.length :: enclosing, (d ⟨c.rest, c.depth + 1⟩).2.depth⟩]))

/-! ## The count is right -/

theorem inContainer_of_lt {c : Cursor ι} (h : c.depth < maxNesting) :
    (d.inContainer c).2.depth = (d ⟨c.rest, c.depth + 1⟩).2.depth - 1 := by
  rw [inContainer, if_neg (Nat.not_le_of_lt h)]

theorem inContainer_of_le {c : Cursor ι} (h : maxNesting ≤ c.depth) :
    (d.inContainer c).2.depth = c.depth := by
  rw [inContainer, if_pos h]

/-- One step of a run after another keeps the count right. -/
theorem Passes.counted {enclosing : List Nat} {c : Cursor ι} {moments : List Moment}
    (h : d.Passes enclosing c moments) (hcount : c.depth = enclosing.length)
    (hle : c.depth ≤ maxNesting) :
    (∀ m ∈ moments, m.Counted) ∧ (d c).2.depth = c.depth := by
  induction h with
  | keeps hd enclosing c =>
    refine ⟨List.forall_mem_singleton.mpr ⟨hcount, hle, ?_, ?_, ?_⟩, congrArg (·.2.depth) (hd _ _)⟩
    all_goals rintro ⟨⟩
  | failed hd h ih =>
    obtain ⟨hmoments, hdepth⟩ := ih hcount hle
    rw [h] at hdepth
    rw [bind_of_error h]
    exact ⟨hmoments, hdepth⟩
  | @bound _ _ d f enclosing c c' moments moments' a hd h hf ih ih' =>
    obtain ⟨hmoments, hdepth⟩ := ih hcount hle
    replace hdepth : c'.depth = c.depth := by rwa [h] at hdepth
    obtain ⟨hmoments', hdepth'⟩ := ih' (hdepth.trans hcount) (hdepth ▸ hle)
    rw [bind_of_ok h]
    exact ⟨List.forall_mem_append.mpr ⟨hmoments, hmoments'⟩, hdepth'.trans hdepth⟩
  | refused h =>
    refine ⟨List.forall_mem_singleton.mpr ⟨hcount, hle, ?_, ?_, ?_⟩, inContainer_of_le h⟩
    · rintro ⟨⟩
    · exact fun _ => Nat.le_antisymm hle h
    · rintro ⟨⟩
  | @contained d enclosing c moments h hd ih =>
    obtain ⟨hmoments, hdepth⟩ := ih (congrArg (· + 1) hcount) h
    replace hdepth : (d ⟨c.rest, c.depth + 1⟩).2.depth = c.depth + 1 := hdepth
    have hopening : Moment.Counted ⟨.opens, enclosing, c.depth⟩ :=
      ⟨hcount, hle, fun _ => h, by rintro ⟨⟩, by rintro ⟨⟩⟩
    have hclosing : Moment.Counted ⟨.closes, c.rest.length :: enclosing, c.depth + 1⟩ :=
      ⟨congrArg (· + 1) hcount, h, by rintro ⟨⟩, by rintro ⟨⟩, fun _ => Nat.succ_pos _⟩
    rw [inContainer_of_lt h, hdepth]
    exact ⟨List.forall_mem_cons.mpr ⟨hopening, List.forall_mem_append.mpr
      ⟨hmoments, List.forall_mem_singleton.mpr hclosing⟩⟩, rfl⟩

/-! ## Runs that are taken apart -/

/-- Every run of the decoder passes through some moments. If it gives `a`, and up to `k` containers
inside of those around are open at a time, then `R a k` holds. -/
def Followed (d : Decoder ι α) (R : α → Nat → Prop) : Prop :=
  ∀ enclosing c, ∃ moments k, d.Passes enclosing c moments ∧
    highest Moment.depth moments = enclosing.length + k ∧ ∀ a c', d c = (.ok a, c') → R a k

variable {R : α → Nat → Prop} {S : β → Nat → Prop}

theorem IgnoresDepth.followed (h : d.IgnoresDepth) (hR : ∀ a, R a 0) : d.Followed R :=
  fun enclosing c => ⟨_, 0, .keeps h enclosing c, Nat.max_zero _, fun a _ _ => hR a⟩

theorem Followed.mono {R' : α → Nat → Prop} (hd : d.Followed R) (h : ∀ a k, R a k → R' a k) :
    d.Followed R' := by
  intro enclosing c
  obtain ⟨moments, k, hmoments, hdeepest, hR⟩ := hd enclosing c
  exact ⟨moments, k, hmoments, hdeepest, fun a c' hres => h a k (hR a c' hres)⟩

theorem Followed.bind (hd : d.Followed R)
    (hf : ∀ a k, R a k → (f a).Followed fun b k' => S b (max k k')) : (d >>= f).Followed S := by
  intro enclosing c
  obtain ⟨moments, k, hmoments, hdeepest, hR⟩ := hd enclosing c
  rcases hres : d c with ⟨_ | a, c'⟩
  · refine ⟨moments, k, .failed hmoments hres, hdeepest, fun b c'' h => ?_⟩
    rw [bind_of_error hres] at h
    cases h
  · obtain ⟨moments', k', hmoments', hdeepest', hS⟩ := hf a k (hR a c' hres) enclosing c'
    refine ⟨moments ++ moments', max k k', .bound hmoments hres hmoments', ?_, fun b c'' h => ?_⟩
    · rw [highest_append, hdeepest, hdeepest', Nat.add_max_add_left]
    · rw [bind_of_ok hres] at h
      exact hS b c'' h

theorem Followed.inContainer {d : Decoder ι (List Message)} {R : List Message → Nat → Prop}
    (hd : d.Followed fun ms k => R ms (k + 1)) : d.inContainer.Followed R := by
  intro enclosing c
  by_cases h : c.depth < maxNesting
  · obtain ⟨moments, k, hmoments, hdeepest, hR⟩ :=
      hd (c.rest.length :: enclosing) ⟨c.rest, c.depth + 1⟩
    refine ⟨_, k + 1, .contained h hmoments, ?_, fun ms c' hres => ?_⟩
    · simp only [highest, highest_append, hdeepest, Moment.depth, List.length_cons]
      omega
    · rw [Decoder.inContainer, if_neg (Nat.not_le_of_lt h)] at hres
      exact hR ms _ (Prod.ext (Prod.mk.inj hres).1 rfl)
  · refine ⟨_, 0, .refused (Nat.le_of_not_lt h), Nat.max_zero _, fun ms c' hres => ?_⟩
    rw [Decoder.inContainer, if_pos (Nat.le_of_not_lt h)] at hres
    cases hres

theorem followed_pure {a : α} (h : R a 0) : (pure a : Decoder ι α).Followed R := by
  refine fun enclosing c => ⟨_, 0, .keeps (fun _ _ => rfl) enclosing c, Nat.max_zero _, ?_⟩
  rintro _ _ ⟨⟩
  exact h

theorem followed_malformed : (malformed : Decoder ι α).Followed R := by
  refine fun enclosing c => ⟨_, 0, .keeps (fun _ _ => rfl) enclosing c, Nat.max_zero _, ?_⟩
  rintro _ _ ⟨⟩

theorem Followed.map {g : α → β} (hd : d.Followed fun a k => S (g a) k) : (g <$> d).Followed S :=
  hd.bind fun a k ha => followed_pure (by rwa [Nat.max_zero])

theorem Followed.times {w : α → Nat} (hd : d.Followed fun a k => k = w a) (n : Nat) :
    (d.times n).Followed fun as k => k = highest w as := by
  induction n with
  | zero => exact followed_pure rfl
  | succ n ih =>
    refine hd.bind fun a k ha => ih.bind fun as k' has => followed_pure ?_
    rw [ha, has, Nat.max_zero, highest]

/-! ## Values without containers -/

/-- No container is opened by the reader. -/
def Flat (d : Decoder ι α) : Prop := d.Followed fun _ k => k = 0

theorem Flat.bind (hd : d.Flat) (hf : ∀ a, (f a).Followed S) : (d >>= f).Followed S :=
  Followed.bind hd fun a k hk => (hf a).mono fun b k' hb => by rwa [hk, Nat.zero_max]

theorem Flat.map (hd : d.Flat) {g : α → β} (h : ∀ a, S (g a) 0) : (g <$> d).Followed S :=
  hd.bind fun a => followed_pure (h a)

theorem Flat.times (hd : d.Flat) (n : Nat) : (d.times n).Flat :=
  Followed.mono (Followed.times (w := fun _ => 0) hd n) fun _ _ hk =>
    hk.trans (Nat.le_zero.mp (highest_le fun _ _ => Nat.le_refl 0))

theorem flat_rest : (Decoder.rest : Decoder ι (List ι)).Flat :=
  IgnoresDepth.followed (fun _ _ => rfl) fun _ => rfl

theorem flat_ofRest (read : List ι → Option (α × List ι)) : (ofRest read).Flat := by
  refine IgnoresDepth.followed (fun rest depth => ?_) fun _ => rfl
  simp only [ofRest]
  cases read rest <;> rfl

theorem flat_ofOption (value : Option α) : (ofOption value : Decoder ι α).Flat := by
  cases value with
  | none => exact followed_malformed
  | some a => exact followed_pure rfl

end Decoder

end SigmaProofs
