import SigmaProofs.Proofs.FiatShamir.Formats
import SigmaProofs.Proofs.Json.Moments

/-!
# Decodings on one thread

All decodings on a thread share one counter of open containers, and each of them starts at the value
that the one before has left.

* `Message.followed_decoder`, `Message.followed_jsonDecoder`: the runs of the readers of messages in
  both formats, on every input.
* `thread counter decodings`: what a thread does, one decoding after another, and its counter before
  and after each.
* `thread_restored`: on whatever inputs, the counter is 0 before and after each decoding, counts the
  containers around at every moment of it, and has no influence on its result.
-/

namespace SigmaProofs

open Decoder

variable {ι α β : Type}

/-! ## Binary messages -/

namespace Binary

theorem flat_exactly (n : Nat) : (readExactly n).Flat := flat_ofRest _

theorem flat_word : readWord.Flat := (flat_exactly 4).map fun _ => rfl

theorem flat_length : readLength.Flat := (flat_exactly 8).map fun _ => rfl

theorem flat_bytes : readBytes.Flat := flat_length.bind flat_exactly

theorem flat_list {item : Decoder UInt8 α} (h : item.Flat) : (readList item).Flat :=
  flat_length.bind h.times

theorem flat_integer : readInteger.Flat := (flat_list flat_word).map fun _ => rfl

end Binary

namespace Message

/-- A list of messages in a container of its own. -/
theorem followed_contained {d : Decoder ι (List Message)}
    (h : d.Followed fun ms k => k = highest nesting ms) :
    d.inContainer.Followed fun ms k => k = nestingAll ms + 1 :=
  Followed.inContainer (h.mono fun ms k hk => by rw [hk, highest_nesting])

section

open Binary

/-- As many containers are open at a time as the message that is read nests. -/
theorem followed_decoder (levels : Nat) : (decoder levels).Followed fun m k => k = m.nesting := by
  induction levels with
  | zero => exact followed_malformed
  | succ levels ih =>
    have hcontained : (inContainer (readList (decoder levels))).Followed
        fun ms k => k = nestingAll ms + 1 :=
      followed_contained (flat_length.bind ih.times)
    refine flat_word.bind fun index => ?_
    split
    · exact flat_bytes.bind fun encoding => followed_pure rfl
    · exact flat_integer.bind fun value => followed_pure rfl
    · exact flat_bytes.bind fun a => flat_bytes.bind fun b => followed_pure rfl
    · exact flat_integer.bind fun u => flat_integer.bind fun v => followed_pure rfl
    · exact flat_integer.bind fun a1 => flat_integer.bind fun a2 => followed_pure rfl
    · exact flat_integer.bind fun z1 => flat_integer.bind fun z2 =>
        flat_integer.bind fun z3 => followed_pure rfl
    · exact hcontained.map
    · exact (flat_list flat_bytes).bind fun challenges => hcontained.map
    · exact followed_malformed

end

/-! ## Messages as JSON text -/

open Json

theorem flat_readBytes : readBytes.Flat := flat_string.bind fun _ => flat_ofOption _

theorem flat_readInteger (room : Nat) : (readInteger room).Flat :=
  (flat_array (fun _ => flat_word) room).map fun _ => rfl

/-- The values of a record whose fields have no containers. -/
theorem flat_values {fields : List (FieldReader α)} (hnames : (fields.map (·.1)).Nodup)
    (h : ∀ f ∈ fields, ∀ room, (f.2 room).Flat) (room : Nat) : (values room fields).Flat :=
  (followed_values (w := fun _ => 0) hnames h room).mono fun _ _ hk =>
    hk.trans (Nat.le_zero.mp (highest_le fun _ _ => Nat.le_refl 0))

theorem flat_readBytesPair {first second : String} (h : first ≠ second) (room : Nat) :
    (readBytesPair first second room).Flat := by
  refine (flat_values (by simpa using h) (List.forall_mem_cons.mpr ⟨fun _ => flat_readBytes,
    List.forall_mem_singleton.mpr fun _ => flat_readBytes⟩) room).bind fun found => ?_
  split
  · exact followed_pure rfl
  · exact followed_malformed

theorem flat_readIntegers {names : List String} (h : names.Nodup) (room : Nat) :
    (readIntegers names room).Flat :=
  flat_values (by simpa [Function.comp_def] using h)
    (List.forall_mem_map.mpr fun _ _ => flat_readInteger) room

/-- How deep the messages in a field nest. -/
def OrField.nesting : OrField → Nat
  | .challenges _ => 0
  | .responses messages => nestingAll messages + 1

theorem followed_jsonDecoder (room : Nat) :
    (jsonDecoder room).Followed fun m k => k = m.nesting := by
  induction room using Nat.strongRecOn with
  | ind room ih =>
  unfold jsonDecoder
  split
  · rename_i room
    have hcontained : ∀ outer inner, inner < room + 3 →
        (inContainer (array outer fun _ => jsonDecoder inner)).Followed
          fun ms k => k = nestingAll ms + 1 := fun outer inner hinner =>
      followed_contained (followed_array (fun _ => ih inner hinner) outer)
    refine followed_variant (fun name => ?_) _
    split
    · rintro _ ⟨⟩ room'
      exact flat_readBytes.map fun _ => rfl
    · rintro _ ⟨⟩ room'
      exact (flat_readInteger room').map fun _ => rfl
    · rintro _ ⟨⟩ room'
      exact (flat_readBytesPair (by decide) room').bind fun _ => followed_pure rfl
    · rintro _ ⟨⟩ room'
      refine (flat_readIntegers (by decide) room').bind fun found => ?_
      split
      · exact followed_pure rfl
      · exact followed_malformed
    · rintro _ ⟨⟩ room'
      refine (flat_readIntegers (by decide) room').bind fun found => ?_
      split
      · exact followed_pure rfl
      · exact followed_malformed
    · rintro _ ⟨⟩ room'
      refine (flat_readIntegers (by decide) room').bind fun found => ?_
      split
      · exact followed_pure rfl
      · exact followed_malformed
    · rintro _ ⟨⟩ room'
      exact (hcontained _ _ (by omega)).map
    · rintro _ ⟨⟩ room'
      have hchallenges : ∀ room, (OrField.challenges <$> array room fun _ => readBytes).Followed
          fun f k => k = f.nesting :=
        fun room => (flat_array (fun _ => flat_readBytes) room).map fun _ => rfl
      have hresponses : (OrField.responses <$>
          inContainer (array (room + 1) fun _ => jsonDecoder room)).Followed
            fun f k => k = f.nesting :=
        (hcontained _ _ (by omega)).map
      refine (followed_values (by simp) (List.forall_mem_cons.mpr ⟨hchallenges,
        List.forall_mem_singleton.mpr fun _ => hresponses⟩) room').bind fun found k hfound => ?_
      split
      · refine followed_pure ?_
        rw [hfound, Nat.max_zero]
        simp [highest, OrField.nesting, nesting]
      · exact followed_malformed
    · rintro _ ⟨⟩
  · exact followed_malformed

end Message

/-! ## Proofs -/

namespace Proof

theorem followed_binaryDecoder :
    binaryDecoder.Followed fun proof k => k = proof.nesting := by
  refine (Message.followed_decoder _).bind fun first k hfirst =>
    (Message.followed_decoder _).bind fun second k' hsecond => followed_pure ?_
  rw [hfirst, hsecond, Nat.max_zero, nesting]

theorem followed_jsonDecoder (room : Nat) :
    (jsonDecoder room).Followed fun proof k => k = proof.nesting := by
  refine (Json.followed_values (by decide) (List.forall_mem_cons.mpr
    ⟨Message.followed_jsonDecoder, List.forall_mem_singleton.mpr Message.followed_jsonDecoder⟩)
    room).bind fun found k hfound => ?_
  split
  · refine followed_pure ?_
    rw [hfound, Nat.max_zero, highest, highest, highest, Nat.max_zero, nesting]
  · exact followed_malformed

end Proof

/-! ## Threads -/

/-- What is decoded. -/
inductive Decoded where
  | message (m : Message)
  | proof (p : Proof)

/-- How deep it nests. -/
def Decoded.nesting : Decoded → Nat
  | message m => m.nesting
  | proof p => p.nesting

/-- An input and what it is decoded as. -/
inductive Decoding where
  | messageBytes (bs : Bytes)
  | messageText (text : String)
  | proofBytes (bs : Bytes)
  | proofText (text : String)

namespace Decoding

/-- The result of a decoding by itself. -/
def result : Decoding → Except DecodeFault Decoded
  | messageBytes bs => (Message.ofBytes bs).map .message
  | messageText text => (Message.ofJson text).map .message
  | proofBytes bs => (Proof.ofBytes bs).map .proof
  | proofText text => (Proof.ofJson text).map .proof

/-- A run from the counter of a thread: the result, made of what was read and of what is left, and
the counter afterwards. -/
def runReader (d : Decoder ι α) (finish : α → List ι → Except DecodeFault Decoded)
    (input : List ι) (counter : Nat) : Except DecodeFault Decoded × Nat :=
  match d ⟨input, counter⟩ with
  | (.ok a, c) => (finish a c.rest, c.depth)
  | (.error fault, c) => (.error fault, c.depth)

/-- What follows the value in a byte string makes no difference. -/
def finishBytes (decoded : α → Decoded) (a : α) (_rest : Bytes) : Except DecodeFault Decoded :=
  .ok (decoded a)

/-- After the value of a text, there may be blanks only. -/
def finishText (decoded : α → Decoded) (a : α) (rest : List Char) : Except DecodeFault Decoded :=
  if rest.all Json.isBlank then .ok (decoded a) else .error .malformed

/-- A decoding on a thread. -/
def run : Decoding → Nat → Except DecodeFault Decoded × Nat
  | messageBytes bs => runReader Message.binaryDecoder (finishBytes .message) bs
  | messageText text =>
    runReader (Message.jsonDecoder Json.room₀) (finishText .message) text.toList
  | proofBytes bs => runReader Proof.binaryDecoder (finishBytes .proof) bs
  | proofText text => runReader (Proof.jsonDecoder Json.room₀) (finishText .proof) text.toList

/-- The moments of a decoding on a thread. -/
def Passes : Decoding → Nat → List Moment → Prop
  | messageBytes bs, counter => Message.binaryDecoder.Passes [] ⟨bs, counter⟩
  | messageText text, counter =>
    (Message.jsonDecoder Json.room₀).Passes [] ⟨text.toList, counter⟩
  | proofBytes bs, counter => Proof.binaryDecoder.Passes [] ⟨bs, counter⟩
  | proofText text, counter => (Proof.jsonDecoder Json.room₀).Passes [] ⟨text.toList, counter⟩

end Decoding

/-- What a thread did with an input, and its counter before and after. -/
structure Served where
  decoding : Decoding
  before : Nat
  result : Except DecodeFault Decoded
  after : Nat

/-- Decodings on a thread, one after another. -/
def thread (counter : Nat) : List Decoding → List Served
  | [] => []
  | decoding :: decodings =>
    let (result, after) := decoding.run counter
    ⟨decoding, counter, result, after⟩ :: thread after decodings

/-- A decoding that leaves no trace on its thread. -/
structure Served.Restored (served : Served) : Prop where
  before_eq : served.before = 0
  after_eq : served.after = 0
  /-- The result is that of the input by itself. -/
  result_eq : served.result = served.decoding.result
  /-- The run passes through moments, and those of a run that gives a message or a proof go exactly
  as deep as it nests. -/
  passes : ∃ moments, served.decoding.Passes served.before moments ∧
    ∀ decoded, served.result = .ok decoded → highest Moment.depth moments = decoded.nesting
  /-- The counter is right at all of them. -/
  counted (moments : List Moment) (h : served.decoding.Passes served.before moments) :
    ∀ m ∈ moments, m.Counted

namespace Decoding

variable {w : α → Nat}

/-- A reader whose runs can be followed gives the counter back. -/
theorem runReader_zero {d : Decoder ι α} (hd : d.Followed fun a k => k = w a)
    (finish : α → List ι → Except DecodeFault Decoded) (input : List ι) :
    runReader d finish input 0 = (d.run input >>= fun x => finish x.1 x.2, 0) := by
  obtain ⟨moments, _, hmoments, -⟩ := hd [] ⟨input, 0⟩
  have hdepth := (hmoments.counted rfl (Nat.zero_le maxNesting)).2
  rw [runReader, Decoder.run]
  rcases hres : d ⟨input, 0⟩ with ⟨fault | a, c⟩
  · rw [hres] at hdepth
    exact congrArg (Prod.mk _) hdepth
  · rw [hres] at hdepth
    exact congrArg (Prod.mk _) hdepth

theorem exists_moments {d : Decoder ι α} (hd : d.Followed fun a k => k = w a)
    {finish : α → List ι → Except DecodeFault Decoded}
    (hfinish : ∀ a rest decoded, finish a rest = .ok decoded → decoded.nesting = w a)
    (input : List ι) : ∃ moments, d.Passes [] ⟨input, 0⟩ moments ∧
      ∀ decoded, (runReader d finish input 0).1 = .ok decoded →
        highest Moment.depth moments = decoded.nesting := by
  obtain ⟨moments, k, hmoments, hdeepest, hk⟩ := hd [] ⟨input, 0⟩
  refine ⟨moments, hmoments, fun decoded h => ?_⟩
  rw [runReader] at h
  rcases hres : d ⟨input, 0⟩ with ⟨fault | a, c⟩
  · rw [hres] at h
    cases h
  · rw [hres] at h
    rw [hdeepest, hk a c hres, hfinish a c.rest decoded h]
    exact Nat.zero_add _

theorem bind_finishBytes {d : Decoder UInt8 α} {bs : Bytes} {decoded : α → Decoded} :
    (d.run bs >>= fun x => finishBytes decoded x.1 x.2) =
      ((d.run bs).map Prod.fst).map decoded := by
  cases d.run bs with
  | error fault => rfl
  | ok x => rfl

theorem bind_finishText {d : Decoder Char α} {text : String} {decoded : α → Decoded} :
    (d.run text.toList >>= fun x => finishText decoded x.1 x.2) =
      (Json.readText d text).map decoded := by
  rw [Json.readText]
  cases d.run text.toList with
  | error fault => rfl
  | ok x =>
    show finishText decoded x.1 x.2 = (if x.2.all Json.isBlank then _ else _ : Except _ _).map _
    rw [finishText]
    split <;> rfl

theorem nesting_of_finishText {f : α → Decoded} (h : ∀ a, (f a).nesting = w a) (a : α)
    (rest : List Char) (decoded : Decoded) (hfinish : finishText f a rest = .ok decoded) :
    decoded.nesting = w a := by
  rw [finishText] at hfinish
  split at hfinish
  · exact Except.ok.inj hfinish ▸ h a
  · cases hfinish

theorem nesting_of_finishBytes {f : α → Decoded} (h : ∀ a, (f a).nesting = w a) (a : α)
    (rest : Bytes) (decoded : Decoded) (hfinish : finishBytes f a rest = .ok decoded) :
    decoded.nesting = w a :=
  Except.ok.inj hfinish ▸ h a

/-- From counter 0, a decoding gives its result and leaves the counter at 0. -/
theorem run_zero (decoding : Decoding) : decoding.run 0 = (decoding.result, 0) := by
  cases decoding with
  | messageBytes bs =>
    exact (runReader_zero (Message.followed_decoder _) _ bs).trans
      (congrArg (·, 0) bind_finishBytes)
  | messageText text =>
    exact (runReader_zero (Message.followed_jsonDecoder _) _ text.toList).trans
      (congrArg (·, 0) bind_finishText)
  | proofBytes bs =>
    exact (runReader_zero Proof.followed_binaryDecoder _ bs).trans
      (congrArg (·, 0) bind_finishBytes)
  | proofText text =>
    exact (runReader_zero (Proof.followed_jsonDecoder _) _ text.toList).trans
      (congrArg (·, 0) bind_finishText)

theorem exists_passes (decoding : Decoding) : ∃ moments, decoding.Passes 0 moments ∧
    ∀ decoded, (decoding.run 0).1 = .ok decoded →
      highest Moment.depth moments = decoded.nesting := by
  cases decoding with
  | messageBytes bs =>
    exact exists_moments (Message.followed_decoder _)
      (nesting_of_finishBytes fun _ => rfl) bs
  | messageText text =>
    exact exists_moments (Message.followed_jsonDecoder _)
      (nesting_of_finishText fun _ => rfl) text.toList
  | proofBytes bs =>
    exact exists_moments Proof.followed_binaryDecoder (nesting_of_finishBytes fun _ => rfl) bs
  | proofText text =>
    exact exists_moments (Proof.followed_jsonDecoder _)
      (nesting_of_finishText fun _ => rfl) text.toList

theorem Passes.counted {decoding : Decoding} {moments : List Moment}
    (h : decoding.Passes 0 moments) : ∀ m ∈ moments, m.Counted := by
  cases decoding <;> exact (Decoder.Passes.counted h rfl (Nat.zero_le maxNesting)).1

end Decoding

/-- One decoding after another leaves no trace, on whatever inputs: a thread that starts with
counter 0 serves all of them so. -/
theorem thread_restored (decodings : List Decoding) :
    (thread 0 decodings).map (·.decoding) = decodings ∧
      ∀ served ∈ thread 0 decodings, served.Restored := by
  induction decodings with
  | nil => exact ⟨rfl, by simp [thread]⟩
  | cons decoding decodings ih =>
    have hrun := decoding.run_zero
    have hpasses := decoding.exists_passes
    rw [hrun] at hpasses
    have hthread : thread 0 (decoding :: decodings) =
        ⟨decoding, 0, decoding.result, 0⟩ :: thread 0 decodings := by
      rw [thread, hrun]
    rw [hthread]
    exact ⟨congrArg (decoding :: ·) ih.1, List.forall_mem_cons.mpr
      ⟨⟨rfl, rfl, rfl, hpasses, fun _ => Decoding.Passes.counted⟩, ih.2⟩⟩

end SigmaProofs
