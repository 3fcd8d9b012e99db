import SigmaProofs.Proofs.Json.Scalars

/-!
# Arrays and objects in JSON text

What is written by `writeArray` and `writeObject` is read back by `array`, `values` and `variant`,
if the items and fields are; the first of them that nests too deeply is refused.

* `Begins text`: the text of a value begins neither with a blank nor with the end of a container.
* `joined`: the items of a container from some place on.
* `Entry`: a field of an object with its text and its value.
-/

namespace SigmaProofs.Json

open Decoder

variable {α ν : Type} {depth : Nat} {rest : List Char}

/-! ## Items -/

/-- The text begins with neither a blank nor the end of a container. -/
def Begins (text : List Char) : Prop :=
  ∃ c rest, text = c :: rest ∧ isBlank c = false ∧ c ≠ ']' ∧ c ≠ '\x7d'

/-- The items of a container, each with its comma unless it is the first. -/
def joined : Bool → List (List Char) → List Char
  | _, [] => []
  | true, part :: parts => part ++ joined false parts
  | false, part :: parts => ',' :: part ++ joined false parts

theorem commaSeparated_eq (parts : List (List Char)) :
    commaSeparated parts = joined true parts := by
  have h : ∀ (part : List Char) (parts : List (List Char)),
      commaSeparated (part :: parts) = part ++ joined false parts := by
    intro part parts
    induction parts generalizing part with
    | nil => simp [commaSeparated, joined]
    | cons part' parts ih => rw [commaSeparated, ih, joined, List.cons_append]; simp
  cases parts with
  | nil => rfl
  | cons part parts => exact h part parts

theorem Begins.ne_nil {text : List Char} (h : Begins text) : text ≠ [] := by
  obtain ⟨c, rest, rfl, -⟩ := h
  exact List.cons_ne_nil c rest

/-- There are no more items than characters. -/
theorem length_le_joined {write : α → List Char} {as : List α} (h : ∀ a ∈ as, Begins (write a))
    (isFirst : Bool) : as.length ≤ (joined isFirst (as.map write)).length := by
  induction as generalizing isFirst with
  | nil => exact Nat.le_refl 0
  | cons a as ih =>
    obtain ⟨ha, has⟩ := List.forall_mem_cons.mp h
    have := List.length_pos_iff.mpr ha.ne_nil
    have := ih has false
    cases isFirst <;> simp [joined] <;> omega

/-- Behind an item stands a comma or the end. -/
theorem endsItem_joined (parts : List (List Char)) (rest : List Char) :
    EndsItem (joined false parts ++ ']' :: rest) := by
  cases parts with
  | nil => exact ⟨']', rest, rfl, .inr rfl⟩
  | cons part parts => exact ⟨',', _, rfl, .inl rfl⟩

theorem another_close {close : Char} (hclose : isBlank close = false) (isFirst : Bool) :
    another close isFirst ⟨close :: rest, depth⟩ = (.ok false, ⟨close :: rest, depth⟩) := by
  rw [another, bind_of_ok (peek_cons hclose rest)]
  simp only [if_true]
  rfl

/-- Whether it is the first or not, the next item is found behind its comma. -/
theorem another_item {close : Char} (hclose : close = ']' ∨ close = '\x7d') {part : List Char}
    (hpart : Begins part) (parts : List (List Char)) (isFirst : Bool) :
    another close isFirst ⟨joined isFirst (part :: parts) ++ rest, depth⟩ =
      (.ok true, ⟨part ++ (joined false parts ++ rest), depth⟩) := by
  obtain ⟨c, part, rfl, hblank, hbracket, hbrace⟩ := hpart
  have hne : c ≠ close := by
    rcases hclose with rfl | rfl
    · exact hbracket
    · exact hbrace
  have hcomma : ',' ≠ close := by rcases hclose with rfl | rfl <;> decide
  cases isFirst with
  | true =>
    simp only [joined, List.append_assoc, List.cons_append]
    rw [another, bind_of_ok (peek_cons hblank _)]
    simp only [if_neg hne, if_true]
    rfl
  | false =>
    simp only [joined, List.append_assoc, List.cons_append]
    rw [another, bind_of_ok (peek_cons rfl _)]
    simp only [if_neg hcomma, if_true, Bool.false_eq_true, if_false]
    have hadvance : advance ⟨',' :: c :: (part ++ (joined false parts ++ rest)), depth⟩ =
        (.ok (), ⟨c :: (part ++ (joined false parts ++ rest)), depth⟩) := rfl
    rw [bind_of_ok hadvance, bind_of_ok (peek_cons hblank _)]
    simp only [if_neg hne]
    rfl

/-! ## Arrays -/

theorem gives_items {item : Decoder Char α} {write : α → List Char} {P : α → Prop} {as : List α}
    (hbegins : ∀ a ∈ as, Begins (write a))
    (h : ∀ a ∈ as, ∀ rest, EndsItem rest →
      item.Gives ⟨write a ++ rest, depth⟩ (P a) a ⟨rest, depth⟩)
    {fuel : Nat} (hfuel : as.length < fuel) (isFirst : Bool) (rest : List Char) :
    (items item fuel isFirst).Gives ⟨joined isFirst (as.map write) ++ ']' :: rest, depth⟩
      (∀ a ∈ as, P a) as ⟨']' :: rest, depth⟩ := by
  induction as generalizing fuel isFirst with
  | nil =>
    obtain _ | fuel := fuel
    · cases hfuel
    refine (gives_of_ok ?_).congr (by simp)
    show items item (fuel + 1) isFirst ⟨']' :: rest, depth⟩ = _
    rw [items, bind_of_ok (another_close rfl isFirst)]
    rfl
  | cons a as ih =>
    obtain ⟨hb, hbs⟩ := List.forall_mem_cons.mp hbegins
    obtain ⟨ha, has⟩ := List.forall_mem_cons.mp h
    obtain _ | fuel := fuel
    · cases hfuel
    rw [List.map_cons, items]
    refine Gives.after (another_item (.inl rfl) hb _ isFirst) ?_
    rw [if_pos rfl]
    exact ((ha _ (endsItem_joined _ rest)).bind fun _ => (ih hbs has (Nat.lt_of_succ_lt_succ hfuel)
      false).bind_pure (a :: ·)).congr List.forall_mem_cons.symm

/-- An array is read back if its items are. -/
theorem gives_array {item : Nat → Decoder Char α} {room : Nat} {write : α → List Char}
    {P : α → Prop} {as : List α} (hbegins : ∀ a ∈ as, Begins (write a))
    (h : ∀ a ∈ as, ∀ rest, EndsItem rest →
      (item room).Gives ⟨write a ++ rest, depth⟩ (P a) a ⟨rest, depth⟩) (rest : List Char) :
    (array (room + 1) item).Gives ⟨writeArray (as.map write) ++ rest, depth⟩ (∀ a ∈ as, P a) as
      ⟨rest, depth⟩ := by
  have hlen := length_le_joined hbegins true
  rw [writeArray, commaSeparated_eq, List.cons_append, List.append_assoc, array]
  refine Gives.after (expect_cons rfl _) ?_
  rw [enter]
  refine Gives.after (rest_eq _) ?_
  refine ((gives_items hbegins h (by rw [List.length_append]; omega) true _).bind fun _ =>
    Gives.after (expect_cons rfl rest) (gives_of_ok rfl)).congr (by rw [and_true])

/-! ## Objects -/

/-- A field of an object: its name and its reader, the text in which its value is written, the
value, and whether it nests within the limit. -/
structure Entry (ν : Type) where
  name : String
  read : Nat → Decoder Char ν
  text : List Char
  value : ν
  fits : Prop

namespace Entry

/-- The field as it is read. -/
def reader (f : Entry ν) : FieldReader ν := (f.name, f.read)

/-- The field as it is written. -/
def written (f : Entry ν) : List Char := quote f.name.toList ++ ':' :: f.text

/-- The field as it is found. -/
def found (f : Entry ν) : String × ν := (f.name, f.value)

/-- The value is read back from its text. -/
def ReadBack (f : Entry ν) (room depth : Nat) : Prop :=
  ∀ rest, (f.read room).Gives ⟨f.text ++ rest, depth⟩ f.fits f.value ⟨rest, depth⟩

theorem begins_written (f : Entry ν) : Begins f.written :=
  ⟨'"', _, rfl, rfl, by decide, by decide⟩

/-- Fields with different names are told apart. -/
theorem find?_reader {fs : List (Entry ν)} (hnames : (fs.map name).Nodup) {f : Entry ν}
    (hf : f ∈ fs) : (fs.map reader).find? (·.1 == f.name) = some f.reader := by
  induction fs with
  | nil => cases hf
  | cons g fs ih =>
    obtain ⟨hg, hfs⟩ := List.nodup_cons.mp hnames
    obtain rfl | hf := List.mem_cons.mp hf
    · exact List.find?_cons_of_pos (by simp [reader])
    · have hne : g.name ≠ f.name := fun h => hg (h ▸ List.mem_map_of_mem hf)
      rw [List.map_cons, List.find?_cons_of_neg (by simpa [reader] using hne), ih hfs hf]

theorem lookup_found {fs : List (Entry ν)} (hnames : (fs.map name).Nodup) {f : Entry ν}
    (hf : f ∈ fs) : (fs.map found).lookup f.name = some f.value := by
  induction fs with
  | nil => cases hf
  | cons g fs ih =>
    obtain ⟨hg, hfs⟩ := List.nodup_cons.mp hnames
    obtain rfl | hf := List.mem_cons.mp hf
    · simp [found]
    · have hne : f.name ≠ g.name := fun h => hg (h ▸ List.mem_map_of_mem hf)
      rw [List.map_cons, found, List.lookup_cons, beq_false_of_ne hne]
      exact ih hfs hf

end Entry

/-- The entries of an object are read in the order in which they are written. -/
theorem gives_entries {all fs : List (Entry ν)} {room : Nat} (hall : (all.map Entry.name).Nodup)
    (hmem : ∀ f ∈ fs, f ∈ all) (h : ∀ f ∈ fs, f.ReadBack room depth) (unknown : Unknown)
    (hnames : (fs.map Entry.name).Nodup) (found : List (String × ν))
    (hnew : ∀ f ∈ fs, ∀ x ∈ found, x.1 ≠ f.name) {fuel : Nat} (hfuel : fs.length < fuel)
    (isFirst : Bool) (rest : List Char) :
    (entries (all.map Entry.reader) unknown room fuel isFirst found).Gives
      ⟨joined isFirst (fs.map Entry.written) ++ '\x7d' :: rest, depth⟩ (∀ f ∈ fs, f.fits)
      ((fs.map Entry.found).reverse ++ found) ⟨'\x7d' :: rest, depth⟩ := by
  induction fs generalizing found fuel isFirst with
  | nil =>
    obtain _ | fuel := fuel
    · cases hfuel
    refine (gives_of_ok ?_).congr (by simp)
    show entries (all.map Entry.reader) unknown room (fuel + 1) isFirst found
      ⟨'\x7d' :: rest, depth⟩ = _
    rw [entries, bind_of_ok (another_close rfl isFirst)]
    rfl
  | cons f fs ih =>
    obtain ⟨hf, hfs⟩ := List.forall_mem_cons.mp h
    obtain ⟨hmemf, hmemfs⟩ := List.forall_mem_cons.mp hmem
    obtain ⟨hnewf, hnewfs⟩ := List.forall_mem_cons.mp hnew
    obtain ⟨hnamef, hnamefs⟩ := List.nodup_cons.mp hnames
    obtain _ | fuel := fuel
    · cases hfuel
    have hno : (found.any fun x => x.1 == f.name) = false := by
      simpa [List.any_eq_false] using hnewf
    rw [List.map_cons, entries]
    refine Gives.after (another_item (.inr rfl) f.begins_written _ isFirst) ?_
    rw [if_pos rfl, Entry.written, List.append_assoc]
    refine Gives.after (string_quote _ _) ?_
    simp only [String.ofList_toList, Entry.find?_reader hall hmemf, hno, Bool.false_eq_true, if_false]
    refine Gives.after (expect_cons rfl _) ?_
    refine ((hf _).bind fun _ => ?_).congr List.forall_mem_cons.symm
    have hnew' : ∀ g ∈ fs, ∀ x ∈ f.found :: found, x.1 ≠ g.name := by
      intro g hg x hx
      obtain rfl | hx := List.mem_cons.mp hx
      · exact fun hname => hnamef (List.mem_map.mpr ⟨g, hg, hname.symm⟩)
      · exact hnewfs g hg x hx
    rw [List.map_cons, List.reverse_cons, List.append_assoc]
    exact ih hmemfs hfs hnamefs _ hnew' (Nat.lt_of_succ_lt_succ hfuel) false

/-- All fields of an object are found, the last one first. -/
theorem gives_record {fs : List (Entry ν)} {room : Nat} (hnames : (fs.map Entry.name).Nodup)
    (h : ∀ f ∈ fs, f.ReadBack room depth) (rest : List Char) :
    (record (room + 1) (fs.map Entry.reader) .skipped .refused).Gives
      ⟨writeObject (fs.map fun f => (f.name, f.text)) ++ rest, depth⟩ (∀ f ∈ fs, f.fits)
      (fs.map Entry.found).reverse ⟨rest, depth⟩ := by
  have htext : writeObject (fs.map fun f => (f.name, f.text)) ++ rest =
      '\x7b' :: (joined true (fs.map Entry.written) ++ '\x7d' :: rest) := by
    rw [writeObject, commaSeparated_eq, List.map_map, List.cons_append, List.append_assoc]
    rfl
  have hlen := length_le_joined (fun (f : Entry ν) (_ : f ∈ fs) => f.begins_written) true
  have hfuel : fs.length < (joined true (fs.map Entry.written) ++ '\x7d' :: rest).length + 1 := by
    rw [List.length_append]
    omega
  have hmissing : ((fs.map Entry.reader).any fun field =>
      !(fs.map Entry.found).reverse.any fun x => x.1 == field.1) = false := by
    rw [List.any_map, List.any_eq_false]
    intro f hf
    simpa [Entry.reader] using ⟨f, hf, rfl⟩
  have hentries := gives_entries hnames (fun _ hf => hf) h .skipped hnames [] (by simp) hfuel true
    rest
  rw [List.append_nil] at hentries
  have hadvance : ∀ text : List Char, advance ⟨'\x7b' :: text, depth⟩ = (.ok (), ⟨text, depth⟩) :=
    fun _ => rfl
  rw [htext, record]
  refine Gives.after (peek_cons rfl _) (Gives.after (hadvance _) ?_)
  rw [enter]
  refine Gives.after (rest_eq _) ?_
  refine (hentries.bind fun _ => Gives.after (expect_cons rfl rest) ?_).congr (by rw [and_true])
  rw [hmissing]
  exact gives_of_ok rfl

/-- The values that were found, by name and in order. -/
theorem filterMap_lookup {fs : List (Entry ν)} {found : List (String × ν)}
    (h : ∀ f ∈ fs, found.lookup f.name = some f.value) :
    (fs.map Entry.reader).filterMap (fun field => found.lookup field.1) = fs.map Entry.value := by
  induction fs with
  | nil => rfl
  | cons f fs ih =>
    obtain ⟨hf, hfs⟩ := List.forall_mem_cons.mp h
    rw [List.map_cons, List.filterMap_cons, ih hfs, Entry.reader, hf, List.map_cons]

/-- An object is read back if its fields are. -/
theorem gives_values {fs : List (Entry ν)} {room : Nat} (hnames : (fs.map Entry.name).Nodup)
    (h : ∀ f ∈ fs, f.ReadBack room depth) (rest : List Char) :
    (values (room + 1) (fs.map Entry.reader)).Gives
      ⟨writeObject (fs.map fun f => (f.name, f.text)) ++ rest, depth⟩ (∀ f ∈ fs, f.fits)
      (fs.map Entry.value) ⟨rest, depth⟩ := by
  have hlookup : ∀ f ∈ fs, (fs.map Entry.found).reverse.lookup f.name = some f.value := by
    intro f hf
    rw [← List.map_reverse]
    refine Entry.lookup_found ?_ (List.mem_reverse.mpr hf)
    rw [List.map_reverse]
    exact List.pairwise_reverse.mpr (hnames.imp Ne.symm)
  rw [← filterMap_lookup hlookup]
  exact (gives_record hnames h rest).bind_pure fun found =>
    (fs.map Entry.reader).filterMap fun field => found.lookup field.1

/-- An object with one entry is read back by the reader for its name. -/
theorem gives_variant {payload : String → Option (Nat → Decoder Char α)} {room : Nat}
    {name : String} {read : Nat → Decoder Char α} (hpayload : payload name = some read)
    {text : List Char} {fits : Prop} {a : α}
    (h : ∀ rest, (read room).Gives ⟨text ++ rest, depth⟩ fits a ⟨rest, depth⟩) (rest : List Char) :
    (variant (room + 1) payload).Gives ⟨writeObject [(name, text)] ++ rest, depth⟩ fits a
      ⟨rest, depth⟩ := by
  have htext : writeObject [(name, text)] ++ rest =
      '\x7b' :: (quote name.toList ++ (':' :: (text ++ '\x7d' :: rest))) := by
    simp [writeObject, commaSeparated]
  rw [htext, variant]
  refine Gives.after (expect_cons rfl _) ?_
  rw [enter]
  refine Gives.after (string_quote _ _) ?_
  rw [String.ofList_toList, hpayload]
  refine Gives.after (expect_cons rfl _) ?_
  exact ((h _).bind fun _ => Gives.after (expect_cons rfl rest) (gives_of_ok rfl)).congr
    (by rw [and_true])

end SigmaProofs.Json
