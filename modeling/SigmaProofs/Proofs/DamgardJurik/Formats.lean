import SigmaProofs.DamgardJurik.Format
import SigmaProofs.Proofs.Bytes
import SigmaProofs.Proofs.DamgardJurik.Checked
import SigmaProofs.Proofs.FiatShamir.Formats

/-!
# The ways to a Damgård–Jurik key

A key is made of a modulus and a length, of two primes, or read from one of its formats.

* `RawKey.ofBytes`, `RawKey.ofJson`: the two numbers that a byte string or a text stands for,
  whether there is a key with them or not. Integers may have zero words at the end
  (`RawKey.ofBytes_eq_ok`, `RawKey.ofJson_written`).
* `Key.AcceptedAlike`: a reader accepts exactly the inputs whose numbers make a key.
* `keys_never_stop`: on every way there are the same conditions, what is written is read back, and
  with no key does any computation stop.
-/

namespace SigmaProofs

open Decoder

/-! ## What was read -/

namespace Decoder

variable {ι α : Type} {d : Decoder ι α}

/-- Whatever is read was written in the given form, and has the property. -/
def Takes (d : Decoder ι α) (write : α → List ι) (P : α → Prop) : Prop :=
  ∀ ⦃c a c'⦄, d c = (.ok a, c') → P a ∧ c.rest = write a ++ c'.rest

theorem Takes.times {write : α → List ι} {P : α → Prop} (h : d.Takes write P) (n : Nat) :
    (d.times n).Takes (·.flatMap write) fun as => as.length = n ∧ ∀ a ∈ as, P a := by
  induction n with
  | zero =>
    rintro c _ _ ⟨⟩
    exact ⟨⟨rfl, by simp⟩, rfl⟩
  | succ n ih =>
    intro c as c' hres
    obtain ⟨a, c₁, ha, hres⟩ := exists_of_bind_eq_ok hres
    obtain ⟨as', c₂, has, hres⟩ := exists_of_bind_eq_ok hres
    cases hres
    obtain ⟨hP, hrest⟩ := h ha
    obtain ⟨⟨hlen, hPs⟩, hrest'⟩ := ih has
    refine ⟨⟨congrArg (· + 1) hlen, List.forall_mem_cons.mpr ⟨hP, hPs⟩⟩, ?_⟩
    simp only [hrest, hrest', List.flatMap_cons, List.append_assoc]

end Decoder

theorem map_fst_eq_ok {α β : Type} {x : Except DecodeFault (α × β)} {a : α} :
    x.map Prod.fst = .ok a ↔ ∃ b, x = .ok (a, b) := by
  cases x with
  | error fault => simp [Except.map]
  | ok x =>
    obtain ⟨a', b⟩ := x
    simp [Except.map]

theorem readText_eq_ok {α : Type} {d : Decoder Char α} {text : String} {a : α} :
    Json.readText d text = .ok a ↔
      ∃ rest, d.run text.toList = .ok (a, rest) ∧ rest.all Json.isBlank = true := by
  rw [Json.readText]
  cases d.run text.toList with
  | error fault => simp
  | ok x =>
    obtain ⟨a', rest⟩ := x
    simp only [ok_bind, Except.ok.injEq, Prod.mk.injEq]
    split
    · rename_i hblank
      simp [hblank]
    · rename_i hblank
      simp [hblank]

namespace Binary

theorem splitExactly_eq_some {ι : Type} {n : Nat} {input front rest : List ι}
    (h : splitExactly n input = some (front, rest)) :
    front.length = n ∧ input = front ++ rest := by
  induction n generalizing input front with
  | zero =>
    cases h
    exact ⟨rfl, rfl⟩
  | succ n ih =>
    cases input with
    | nil => cases h
    | cons x input =>
      obtain ⟨⟨front', rest'⟩, hsplit, heq⟩ := Option.map_eq_some_iff.mp h
      cases heq
      obtain ⟨hlen, rfl⟩ := ih hsplit
      exact ⟨congrArg (· + 1) hlen, rfl⟩

/-- Of a fixed number of bytes, a number has one form only. -/
theorem takes_fixed (k : Nat) :
    (ofLittleEndian <$> readExactly k).Takes (littleEndian k) (· < 256 ^ k) := by
  intro c n c' hres
  obtain ⟨bs, c₁, hbs, hres⟩ := exists_of_bind_eq_ok hres
  cases hres
  rw [readExactly, ofRest] at hbs
  split at hbs
  · rename_i front rest hsplit
    cases hbs
    obtain ⟨rfl, hrest⟩ := splitExactly_eq_some hsplit
    have hlt := ofLittleEndian_lt bs
    refine ⟨hlt, ?_⟩
    rw [hrest, ofLittleEndian_inj (littleEndian_length _ _) (ofLittleEndian_littleEndian hlt)]
  · cases hbs

theorem takes_word : readWord.Takes writeWord (· < 2 ^ (32 : Nat)) := takes_fixed 4

theorem takes_length : readLength.Takes writeLength (· < 2 ^ (64 : Nat)) := takes_fixed 8

/-- An integer of given words, which may end with zeros. -/
def writeWords (ws : List Nat) : Bytes := writeLength ws.length ++ ws.flatMap writeWord

theorem takes_words : (readList readWord).Takes writeWords fun ws =>
    (∀ w ∈ ws, w < 2 ^ (32 : Nat)) ∧ ws.length < 2 ^ (64 : Nat) := by
  intro c ws c' hres
  obtain ⟨len, c₁, hlen, hres⟩ := exists_of_bind_eq_ok hres
  obtain ⟨hlt, hrest⟩ := takes_length hlen
  obtain ⟨⟨rfl, hws⟩, hrest'⟩ := takes_word.times _ hres
  refine ⟨⟨hws, hlt⟩, ?_⟩
  rw [hrest, hrest', writeWords, List.append_assoc]

theorem reads_words {depth : Nat} {ws : List Nat} (hws : ∀ w ∈ ws, w < 2 ^ (32 : Nat))
    (hlen : ws.length < 2 ^ (64 : Nat)) : (readList readWord).Reads depth (writeWords ws) ws :=
  (reads_length hlen).bind (.times fun w hw => reads_word (hws w hw))

end Binary

namespace Json

variable {ν : Type} {depth room : Nat}

/-- The next entry of an object is read, if its value is in front of what follows. -/
theorem entries_of_next {fields : List (FieldReader ν)} {f : Entry ν} {unknown : Unknown}
    {fuel : Nat} {isFirst : Bool} {found : List (String × ν)} {parts : List (List Char)}
    {rest : List Char} (hfind : fields.find? (·.1 == f.name) = some f.reader)
    (hnew : found.any (·.1 == f.name) = false)
    (hread : f.read room ⟨f.text ++ (joined false parts ++ rest), depth⟩ =
      (.ok f.value, ⟨joined false parts ++ rest, depth⟩)) :
    entries fields unknown room (fuel + 1) isFirst found
        ⟨joined isFirst (f.written :: parts) ++ rest, depth⟩ =
      entries fields unknown room fuel false (f.found :: found)
        ⟨joined false parts ++ rest, depth⟩ := by
  rw [entries, bind_of_ok (another_item (.inr rfl) f.begins_written parts isFirst), if_pos rfl,
    Entry.written, List.append_assoc, bind_of_ok (string_quote _ _)]
  simp only [String.ofList_toList, hfind, hnew, Bool.false_eq_true, if_false]
  rw [List.cons_append, bind_of_ok (expect_cons rfl _)]
  exact bind_of_ok hread

section

variable {f g : Entry ν} (hne : f.name ≠ g.name) (hf : (f.read room).Reads depth f.text f.value)
  (hg : ∀ rest, g.read room ⟨g.text ++ '\x7d' :: rest, depth⟩ = (.ok g.value, ⟨'\x7d' :: rest, depth⟩))
include hne hf hg

theorem entries_two (fuel : Nat) (rest : List Char) :
    entries [f.reader, g.reader] .skipped room (fuel + 3) true []
      ⟨joined true [f.written, g.written] ++ '\x7d' :: rest, depth⟩ =
        (.ok [g.found, f.found], ⟨'\x7d' :: rest, depth⟩) := by
  rw [entries_of_next (by simp [Entry.reader]) rfl (hf _),
    entries_of_next (by simp [Entry.reader, hne]) (by simp [Entry.found, hne]) (hg rest),
    entries, joined, List.nil_append, bind_of_ok (another_close rfl false)]
  rfl

theorem record_two (rest : List Char) :
    (record (room + 1) [f.reader, g.reader] .skipped .refused).Gives
      ⟨writeObject [(f.name, f.text), (g.name, g.text)] ++ rest, depth⟩ True [g.found, f.found]
      ⟨rest, depth⟩ := by
  have htext : writeObject [(f.name, f.text), (g.name, g.text)] ++ rest =
      '\x7b' :: (joined true [f.written, g.written] ++ '\x7d' :: rest) := by
    rw [writeObject, commaSeparated_eq, List.cons_append, List.append_assoc]
    rfl
  have hadvance : ∀ text : List Char, advance ⟨'\x7b' :: text, depth⟩ = (.ok (), ⟨text, depth⟩) :=
    fun _ => rfl
  -- A name has its quotes at least: the fuel is enough for both entries and the end.
  obtain ⟨fuel, hfuel⟩ : ∃ fuel,
      (joined true [f.written, g.written] ++ '\x7d' :: rest).length + 1 = fuel + 3 :=
    ⟨(f.text ++ joined false [g.written] ++ rest).length + (quote f.name.toList).length, by
      simp only [joined, Entry.written, List.length_append, List.length_cons]; omega⟩
  have hmissing : ([f.reader, g.reader].any fun field =>
      !(List.any [g.found, f.found] fun x => x.1 == field.1)) = false := by
    simp [Entry.reader, Entry.found]
  rw [htext, record]
  refine Gives.after (peek_cons rfl _) (Gives.after (hadvance _) ?_)
  rw [enter]
  refine Gives.after (rest_eq _) ?_
  rw [hfuel]
  refine Gives.after (entries_two hne hf hg fuel rest) (Gives.after (expect_cons rfl rest) ?_)
  rw [hmissing]
  exact gives_of_ok rfl

/-- An object with two fields is read, if the second is in front of the end. -/
theorem values_two : (values (room + 1) [f.reader, g.reader]).Reads depth
    (writeObject [(f.name, f.text), (g.name, g.text)]) [f.value, g.value] := by
  intro rest
  have hvalues : [f.reader, g.reader].filterMap (fun field => [g.found, f.found].lookup field.1) =
      [f.value, g.value] := by
    simp [Entry.reader, Entry.found, List.lookup_cons, beq_false_of_ne hne]
  rw [← hvalues]
  have hread := (record_two hne hf hg rest).bind_pure fun found =>
    [f.reader, g.reader].filterMap fun field => found.lookup field.1
  exact hread.ok trivial

end

end Json

namespace DamgardJurik

open Binary

namespace RawKey

/-! ## The numbers in a format -/

def binaryDecoder : Decoder UInt8 RawKey := do
  let n ← readInteger
  return ⟨n, ← readWord⟩

def ofBytes (bs : Bytes) : Except DecodeFault RawKey := (binaryDecoder.run bs).map Prod.fst

def jsonDecoder (room : Nat) : Decoder Char RawKey := do
  match ← Json.values room [("n", Json.readInteger), ("s", fun _ => Json.word)] with
  | [n, s] => return ⟨n, s⟩
  | _ => .malformed

def ofJson (text : String) : Except DecodeFault RawKey :=
  Json.readText (jsonDecoder Json.room₀) text

/-- The key with these numbers, if they are admissible. -/
def check (k : RawKey) : Except ConfigError Key := Key.ofModulus k.n k.s

/-- The binary form of two numbers, of which the first has the given words. -/
def bytesOf (ws : List Nat) (s : Nat) : Bytes := writeWords ws ++ writeWord s

/-- The JSON text of two numbers, of which the first has the given words. -/
def textOf (ws : List Nat) (s : Nat) : List Char :=
  Json.writeObject [("n", Json.writeArray (ws.map Json.decimal)), ("s", Json.decimal s)]

theorem reads_bytesOf {ws : List Nat} {s : Nat} (hws : ∀ w ∈ ws, w < 2 ^ (32 : Nat))
    (hlen : ws.length < 2 ^ (64 : Nat)) (hs : s < 2 ^ (32 : Nat)) :
    binaryDecoder.Reads 0 (bytesOf ws s) ⟨ofWords ws, s⟩ :=
  ((reads_words hws hlen).map ofWords).bind (reads_word hs).bind_pure

/-- Byte strings that stand for the two numbers. -/
theorem ofBytes_eq_ok {bs : Bytes} {k : RawKey} : ofBytes bs = .ok k ↔
    ∃ ws rest, (∀ w ∈ ws, w < 2 ^ (32 : Nat)) ∧ ws.length < 2 ^ (64 : Nat) ∧ k.s < 2 ^ (32 : Nat) ∧
      k.n = ofWords ws ∧ bs = bytesOf ws k.s ++ rest := by
  constructor
  · intro h
    rw [ofBytes] at h
    cases hrun : binaryDecoder.run bs with
    | error fault => simp [hrun, Except.map] at h
    | ok read =>
    obtain ⟨k', rest⟩ := read
    obtain rfl : k' = k := by simpa [hrun, Except.map] using h
    obtain ⟨depth, hres⟩ := exists_of_run_eq_ok hrun
    obtain ⟨n, c₁, hn, hres⟩ := exists_of_bind_eq_ok hres
    obtain ⟨ws, c₂, hws, hn⟩ := exists_of_bind_eq_ok hn
    obtain ⟨s, c₃, hs, hres⟩ := exists_of_bind_eq_ok hres
    cases hn
    cases hres
    obtain ⟨⟨hlt, hlen⟩, hrest⟩ := takes_words hws
    obtain ⟨hs, hrest'⟩ := takes_word hs
    refine ⟨ws, rest, hlt, hlen, hs, rfl, ?_⟩
    rw [bytesOf, List.append_assoc]
    exact hrest.trans (congrArg _ hrest')
  · rintro ⟨ws, rest, hws, hlen, hs, hn, rfl⟩
    obtain ⟨n, s⟩ := k
    obtain rfl : n = ofWords ws := hn
    rw [ofBytes, Decoder.run, reads_bytesOf hws hlen hs]
    rfl

/-- The modulus as a field, with the given words. -/
def modulusEntry (ws : List Nat) : Json.Entry Nat :=
  ⟨"n", Json.readInteger, Json.writeArray (ws.map Json.decimal), ofWords ws, True⟩

/-- The length as a field. -/
def lengthEntry (s : Nat) : Json.Entry Nat := ⟨"s", fun _ => Json.word, Json.decimal s, s, True⟩

/-- A text that stands for the two numbers, the first of them with the given words. -/
theorem ofJson_textOf {ws : List Nat} {s : Nat} (hws : ∀ w ∈ ws, w < 2 ^ (32 : Nat))
    (hs : s < 2 ^ (32 : Nat)) : ofJson (String.ofList (textOf ws s)) = .ok ⟨ofWords ws, s⟩ := by
  have hmodulus : ((modulusEntry ws).read 126).Reads 0 (modulusEntry ws).text (ofWords ws) :=
    (Json.reads_array (fun w _ => Json.begins_decimal w) fun w hw _ hrest =>
      Json.word_decimal (hws w hw) hrest.endsNumber).map ofWords
  have hlength : ∀ rest, Json.word ⟨Json.decimal s ++ '\x7d' :: rest, 0⟩ =
      (.ok s, ⟨'\x7d' :: rest, 0⟩) := fun rest =>
    Json.word_decimal hs (by rintro _ ⟨⟩; decide)
  have hne : (modulusEntry ws).name ≠ (lengthEntry s).name := by
    simp [modulusEntry, lengthEntry]
  have hnumbers : (jsonDecoder Json.room₀).Reads 0 (textOf ws s) ⟨ofWords ws, s⟩ := fun rest =>
    bind_of_ok (Json.values_two hne hmodulus hlength rest)
  have hgives := hnumbers.gives []
  rw [List.append_nil] at hgives
  rw [ofJson, readText_gives hgives, if_pos trivial]

end RawKey

/-! ## The ways to a key -/

namespace Key

/-- A reader accepts exactly the inputs whose numbers make a key, and gives that key. Where the
numbers make none, it says why. -/
structure AcceptedAlike {ι : Type} (read : ι → Except DecodeFault Key)
    (numbers : ι → Except DecodeFault RawKey) : Prop where
  accepts_iff (input : ι) (key : Key) :
    read input = .ok key ↔ ∃ k, numbers input = .ok k ∧ k.check = .ok key
  refuses {input : ι} {k : RawKey} {cause : ConfigError} (hk : numbers input = .ok k)
    (hcause : k.check = .error cause) : read input = .error (.refused cause)

/-- A reader of numbers that make a key. -/
def checked {ι : Type} (d : Decoder ι RawKey) : Decoder ι Key := d >>= fun k => .ofExcept k.check

theorem run_checked_eq_ok {ι : Type} {d : Decoder ι RawKey} {input rest : List ι} {key : Key} :
    (checked d).run input = .ok (key, rest) ↔
      ∃ k, d.run input = .ok (k, rest) ∧ k.check = .ok key := by
  rw [Decoder.run, Decoder.run]
  rcases hres : d ⟨input, 0⟩ with ⟨fault | k, c⟩
  · rw [checked, bind_of_error hres]
    simp
  · rw [checked, bind_of_ok hres]
    cases hcheck : k.check with
    | error cause => simp [Decoder.ofExcept, Decoder.fail, hcheck]
    | ok key' => simp [Decoder.ofExcept, Decoder.pure, hcheck, and_comm]

theorem run_checked_refused {ι : Type} {d : Decoder ι RawKey} {input rest : List ι} {k : RawKey}
    {cause : ConfigError} (hk : d.run input = .ok (k, rest)) (hcause : k.check = .error cause) :
    (checked d).run input = .error (.refused cause) := by
  obtain ⟨depth, hres⟩ := exists_of_run_eq_ok hk
  rw [Decoder.run, checked, bind_of_ok hres, hcause]
  rfl

theorem binaryDecoder_eq : binaryDecoder = checked RawKey.binaryDecoder := by
  rw [checked, RawKey.binaryDecoder, bind_assoc]
  refine congrArg _ (funext fun n => ?_)
  rw [bind_assoc]
  rfl

theorem jsonDecoder_eq (room : Nat) : jsonDecoder room = checked (RawKey.jsonDecoder room) := by
  rw [checked, RawKey.jsonDecoder, bind_assoc]
  refine congrArg _ (funext fun found => ?_)
  rcases found with _ | ⟨n, _ | ⟨s, _ | ⟨_, _⟩⟩⟩ <;> rfl

theorem ofBytes_acceptedAlike : AcceptedAlike ofBytes RawKey.ofBytes where
  accepts_iff bs key := by
    simp only [ofBytes, RawKey.ofBytes, map_fst_eq_ok, binaryDecoder_eq, run_checked_eq_ok]
    constructor
    · rintro ⟨rest, k, hrun, hk⟩
      exact ⟨k, ⟨rest, hrun⟩, hk⟩
    · rintro ⟨k, ⟨rest, hrun⟩, hk⟩
      exact ⟨rest, k, hrun, hk⟩
  refuses {bs k cause} hk hcause := by
    obtain ⟨rest, hrun⟩ := map_fst_eq_ok.mp hk
    rw [ofBytes, binaryDecoder_eq, run_checked_refused hrun hcause]
    rfl

theorem ofJson_acceptedAlike : AcceptedAlike ofJson RawKey.ofJson where
  accepts_iff text key := by
    simp only [ofJson, RawKey.ofJson, readText_eq_ok, jsonDecoder_eq, run_checked_eq_ok]
    constructor
    · rintro ⟨rest, ⟨k, hrun, hk⟩, hblank⟩
      exact ⟨k, ⟨rest, hrun, hblank⟩, hk⟩
    · rintro ⟨k, ⟨rest, hrun, hblank⟩, hk⟩
      exact ⟨rest, ⟨k, hrun, hk⟩, hblank⟩
  refuses {text k cause} hk hcause := by
    obtain ⟨rest, hrun, -⟩ := readText_eq_ok.mp hk
    rw [ofJson, jsonDecoder_eq, Json.readText, run_checked_refused hrun hcause]
    rfl

theorem check_raw (key : Key) : key.raw.check = .ok key := ofModulus_eq_ok.mpr ⟨rfl, rfl⟩

/-- A modulus is read back from its words. -/
theorem ofWords_words (n : Nat) : ofWords (words n) = n := ofDigits_digits (by decide) n

theorem s_lt_word (key : Key) : key.s < 2 ^ (32 : Nat) :=
  Nat.lt_of_lt_of_le key.s_lt (Nat.sub_le _ _)

theorem raw_eq (key : Key) : key.raw = ⟨ofWords (words key.n), key.s⟩ := by
  rw [ofWords_words]
  rfl

/-- A key is read back whatever follows it. The number of words has to fit into eight bytes. -/
theorem ofBytes_toBytes {key : Key} (h : (words key.n).length < 2 ^ (64 : Nat)) (rest : Bytes) :
    ofBytes (key.toBytes ++ rest) = .ok key := by
  refine (ofBytes_acceptedAlike.accepts_iff _ _).mpr ⟨key.raw, ?_, check_raw key⟩
  exact RawKey.ofBytes_eq_ok.mpr ⟨words key.n, rest, fun _ => digits_lt, h, key.s_lt_word,
    (ofWords_words key.n).symm, rfl⟩

theorem ofJson_toJson (key : Key) : ofJson (String.ofList key.toJson) = .ok key := by
  refine (ofJson_acceptedAlike.accepts_iff _ _).mpr ⟨key.raw, ?_, check_raw key⟩
  rw [raw_eq]
  exact RawKey.ofJson_textOf (fun _ => digits_lt) key.s_lt_word

end Key

/-- The conditions on the modulus and the length of a key. -/
structure RawKey.Admissible (k : RawKey) : Prop where
  n_odd : k.n % 2 = 1
  n_gt : 3 < k.n
  s_pos : 1 ≤ k.s
  s_lt : k.s < 2 ^ (32 : Nat) - 1

theorem Key.admissible (key : Key) : key.raw.Admissible :=
  ⟨key.n_odd, key.n_gt, key.s_pos, key.s_lt⟩

theorem RawKey.check_eq_ok {k : RawKey} {key : Key} :
    k.check = .ok key ↔ k.Admissible ∧ key.raw = k := by
  constructor
  · intro h
    obtain ⟨n, s⟩ := k
    obtain ⟨rfl, rfl⟩ := Key.ofModulus_eq_ok.mp h
    exact ⟨key.admissible, rfl⟩
  · rintro ⟨-, rfl⟩
    exact Key.check_raw key

/-- Zero words at the end of an integer make no difference. -/
theorem ofWords_append_zeros (ws : List Nat) (count : Nat) :
    ofWords (ws ++ List.replicate count 0) = ofWords ws := by
  unfold ofWords
  induction ws with
  | nil =>
    induction count with
    | zero => rfl
    | succ count ih =>
      rw [List.nil_append] at ih
      rw [List.nil_append, List.replicate_succ, ofDigits.eq_2, ih]
      rfl
  | cons w ws ih => rw [List.cons_append, ofDigits, ofDigits, ih]

/-- On every way to a key, the conditions are the same. -/
structure WaysToKeys : Prop where
  /-- Two numbers make a key if and only if they satisfy the conditions. -/
  ofModulus_iff (n s : Nat) (key : Key) :
    Key.ofModulus n s = .ok key ↔ RawKey.Admissible ⟨n, s⟩ ∧ key.raw = ⟨n, s⟩
  /-- Two primes make a key only if their product does. -/
  ofPrimes {p q s : Nat} {key : Key} (h : Key.ofPrimes p q s = .ok key) :
    Key.ofModulus (p * q) s = .ok key
  ofBytes : Key.AcceptedAlike Key.ofBytes RawKey.ofBytes
  ofJson : Key.AcceptedAlike Key.ofJson RawKey.ofJson
  /-- The byte strings of two numbers. The first may be written in any words. -/
  bytes_iff (bs : Bytes) (k : RawKey) : RawKey.ofBytes bs = .ok k ↔
    ∃ ws rest, (∀ w ∈ ws, w < 2 ^ (32 : Nat)) ∧ ws.length < 2 ^ (64 : Nat) ∧ k.s < 2 ^ (32 : Nat) ∧
      k.n = ofWords ws ∧ bs = RawKey.bytesOf ws k.s ++ rest
  /-- The same words may be written in a text. -/
  text_eq {ws : List Nat} {s : Nat} (hws : ∀ w ∈ ws, w < 2 ^ (32 : Nat)) (hs : s < 2 ^ (32 : Nat)) :
    RawKey.ofJson (String.ofList (RawKey.textOf ws s)) = .ok ⟨ofWords ws, s⟩
  zeros (ws : List Nat) (count : Nat) : ofWords (ws ++ List.replicate count 0) = ofWords ws
  /-- What is written is read back. -/
  bytes_back {key : Key} (h : (words key.n).length < 2 ^ (64 : Nat)) :
    Key.ofBytes key.toBytes = .ok key
  text_back (key : Key) : Key.ofJson (String.ofList key.toJson) = .ok key

/-- What the conditions on a key are good for. -/
structure Key.Usable (key : Key) : Prop where
  admissible : key.raw.Admissible
  /-- The length can be incremented in 32 bits. -/
  next_lt : key.s + 1 < 2 ^ (32 : Nat)
  plaintextModulus_pos : 0 < key.plaintextModulus
  ciphertextModulus_pos : 0 < key.ciphertextModulus
  /-- The range of random units is not empty. -/
  exists_lt : ∃ a, 1 ≤ a ∧ a < key.n
  neverStops : key.NeverStops

theorem waysToKeys : WaysToKeys where
  ofModulus_iff n s key := RawKey.check_eq_ok (k := ⟨n, s⟩)
  ofPrimes h := by
    obtain ⟨-, hn, hs⟩ := Key.ofPrimes_eq_ok.mp h
    exact Key.ofModulus_eq_ok.mpr ⟨hn, hs⟩
  ofBytes := Key.ofBytes_acceptedAlike
  ofJson := Key.ofJson_acceptedAlike
  bytes_iff _ _ := RawKey.ofBytes_eq_ok
  text_eq := RawKey.ofJson_textOf
  zeros := ofWords_append_zeros
  bytes_back {key} h := by
    rw [← List.append_nil key.toBytes]
    exact Key.ofBytes_toBytes h []
  text_back := Key.ofJson_toJson

theorem Key.usable (key : Key) : key.Usable where
  admissible := key.admissible
  next_lt := Nat.add_lt_of_lt_sub key.s_lt
  plaintextModulus_pos := key.plaintextModulus_pos
  ciphertextModulus_pos := key.ciphertextModulus_pos
  exists_lt := ⟨1, Nat.le_refl 1, key.one_lt_n⟩
  neverStops := key.neverStops

/-- Keys satisfy the same conditions on every way in. With none of them does encryption stop, or
a prover, a verifier or a simulator, whatever its input, nor the conversion of a statement. -/
theorem keys_never_stop : WaysToKeys ∧ (∀ key : Key, key.Usable) ∧
    (∀ (E : Type) (l : Leaf E) (t : Soundness), l.NeverStops t) ∧
    ∀ (E : Type) (c : Conversion E) (s : Statement E), c.applyChecked s = pure (c.apply s) :=
  ⟨waysToKeys, Key.usable, fun _ => Leaf.neverStops, fun _ => Conversion.applyChecked_eq⟩

end DamgardJurik

end SigmaProofs
