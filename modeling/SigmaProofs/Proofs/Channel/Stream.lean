import Mathlib.Data.List.Basic
import SigmaProofs.Channel.Stream
import SigmaProofs.Proofs.Bytes

/-!
# Frames on a byte stream are neither lost nor mixed up

Sender and receiver share nothing but the bytes of the stream. What is proved of the receiver is
proved of the bytes that are left to it.

* `ByteStreamPair.Left`: the bytes that are left. `Left.receive_frame`, `Left.receive_part`,
  `Left.receive_oversized` say what a call makes of a whole frame, of a part of one, and of a length
  that is too large.
* `ByteStreamPair.sendAll_eq`: what is written are the frames that are not too long.
* `ByteStreamPair.receives_of_left`: what is received from a stream that was cut are the frames that
  lie before the cut.
* `ByteStreamPair.framing_faithful`: sending and receiving together.
-/

namespace SigmaProofs

/-! ## Frames as lists of bytes -/

@[simp] theorem Bytes.toFrame_ofFrame (frame : ByteArray) : (Bytes.ofFrame frame).toFrame = frame :=
  ByteArray.ext (Array.toArray_toList ..)

theorem Bytes.toFrame_append (as bs : Bytes) : Bytes.toFrame (as ++ bs) = as.toFrame ++ bs.toFrame :=
  ByteArray.ext (by simp [Bytes.toFrame])

@[simp] theorem Bytes.ofFrame_length (frame : ByteArray) :
    (Bytes.ofFrame frame).length = frame.size := rfl

theorem Bytes.ofFrame_extract (frame : ByteArray) (start stop : Nat) :
    Bytes.ofFrame (frame.extract start stop) =
      ((Bytes.ofFrame frame).drop start).take (stop - start) := by
  simp [Bytes.ofFrame, List.extract_eq_take_drop]

namespace ByteStreamPair

variable {s : ByteStreamPair}

/-! ## Frames on the stream -/

/-- A frame on the stream: its length, and its bytes. -/
def encode (frame : ByteArray) : Bytes := lengthPrefix frame.size ++ Bytes.ofFrame frame

/-- Frames on the stream, one after another. -/
def encodeAll (frames : List ByteArray) : Bytes := frames.flatMap encode

@[simp] theorem lengthPrefix_length (n : Nat) : (lengthPrefix n).length = 4 := by
  simp [lengthPrefix]

theorem toNat_lengthPrefix {n : Nat} (h : n ≤ maxFrameLength) : (lengthPrefix n).toNat = n := by
  have hlt : n < 256 ^ 4 := by
    unfold maxFrameLength at h
    omega
  rw [lengthPrefix, Bytes.toNat, List.reverse_reverse, ofLittleEndian_littleEndian hlt]

@[simp] theorem encode_length (frame : ByteArray) : (encode frame).length = 4 + frame.size := by
  simp [encode]

@[simp] theorem encodeAll_nil : encodeAll [] = [] := rfl

@[simp] theorem encodeAll_cons (frame : ByteArray) (frames : List ByteArray) :
    encodeAll (frame :: frames) = encode frame ++ encodeAll frames := rfl

example : encodeAll [⟨#[104, 101]⟩, .empty] = [0, 0, 0, 2, 104, 101, 0, 0, 0, 0] := by decide

/-! ## Sending -/

/-- Frames are sent one after another, whatever becomes of them. -/
def sendAll : List ByteArray → ByteStreamPair → List (Except ChannelError Unit) × ByteStreamPair
  | [], s => ([], s)
  | frame :: frames, s =>
    let (result, s) := send frame s
    let (results, s) := sendAll frames s
    (result :: results, s)

/-- The frames that are not too long. -/
def sendable (frames : List ByteArray) : List ByteArray :=
  frames.filter (·.size ≤ maxFrameLength)

theorem send_of_le {frame : ByteArray} (h : frame.size ≤ maxFrameLength) :
    send frame s = (.ok (), { s with written := s.written ++ (encode frame).toFrame }) := by
  rw [send, if_neg (Nat.not_lt.mpr h), encode, Bytes.toFrame_append, Bytes.toFrame_ofFrame,
    ByteArray.append_assoc]

theorem send_of_lt {frame : ByteArray} (h : maxFrameLength < frame.size) :
    send frame s = (.error .frameTooLarge, s) := by
  rw [send, if_pos h]

/-- A frame is sent or refused by its length alone, and nothing is written of one that is
refused. -/
theorem sendAll_eq (frames : List ByteArray) (s : ByteStreamPair) :
    sendAll frames s =
      (frames.map fun frame =>
          if frame.size ≤ maxFrameLength then .ok () else .error .frameTooLarge,
        { s with written := s.written ++ (encodeAll (sendable frames)).toFrame }) := by
  induction frames generalizing s with
  | nil =>
    have hempty : (encodeAll (sendable [])).toFrame = ByteArray.empty := rfl
    rw [sendAll, hempty, ByteArray.append_empty]
    rfl
  | cons frame frames ih =>
    rw [sendAll]
    by_cases h : frame.size ≤ maxFrameLength
    · simp [send_of_le h, ih, sendable, h, Bytes.toFrame_append, ByteArray.append_assoc]
    · simp [send_of_lt (Nat.lt_of_not_le h), ih, sendable, h]

/-! ## The bytes that are left -/

/-- What comes in and is not consumed yet are the given bytes. -/
def Left (s : ByteStreamPair) (bs : Bytes) : Prop :=
  ∃ read, Bytes.ofFrame s.incoming = read ++ bs ∧ s.consumed = read.length

/-- As many bytes as are asked for are read. -/
theorem Left.readExactly_ok {front bs : Bytes} (h : s.Left (front ++ bs)) :
    ∃ s', s.readExactly front.length = (.ok front.toFrame, s') ∧ s'.Left bs := by
  obtain ⟨read, hincoming, hconsumed⟩ := h
  have hsize : s.incoming.size = read.length + (front.length + bs.length) := by
    rw [← Bytes.ofFrame_length, hincoming, List.length_append, List.length_append]
  have hbytes : s.incoming.extract s.consumed (s.consumed + front.length) = front.toFrame := by
    rw [← Bytes.toFrame_ofFrame (s.incoming.extract ..), Bytes.ofFrame_extract, hincoming,
      hconsumed, Nat.add_sub_cancel_left, List.drop_left, List.take_left]
  refine ⟨{ s with consumed := s.consumed + front.length }, ?_, read ++ front, ?_, ?_⟩
  · rw [readExactly, if_pos (by omega), hbytes]
  · rw [hincoming, List.append_assoc]
  · rw [hconsumed, List.length_append]

/-- Where fewer bytes are left, none are left afterwards. -/
theorem Left.readExactly_error {bs : Bytes} {count : Nat} (h : s.Left bs)
    (hcount : bs.length < count) :
    ∃ s', s.readExactly count = (.error .streamEnded, s') ∧ s'.Left [] := by
  obtain ⟨read, hincoming, hconsumed⟩ := h
  have hsize : s.incoming.size = read.length + bs.length := by
    rw [← Bytes.ofFrame_length, hincoming, List.length_append]
  refine ⟨{ s with consumed := s.incoming.size }, ?_, Bytes.ofFrame s.incoming, ?_, rfl⟩
  · rw [readExactly, if_neg (by omega)]
  · rw [List.append_nil]

/-! ## Receiving -/

/-- A length above the limit is refused, and what follows it is left. -/
theorem Left.receive_oversized {header bs : Bytes} (h : s.Left (header ++ bs))
    (hlen : header.length = 4) (hlarge : maxFrameLength < header.toNat) :
    ∃ s', receive s = (.error .incomingTooLarge, s') ∧ s'.Left bs := by
  obtain ⟨s', hread, hleft⟩ := h.readExactly_ok
  rw [hlen] at hread
  exact ⟨s', by simp [receive, hread, hlarge], hleft⟩

/-- A length within the limit is not refused for being too large, whatever follows it. -/
theorem Left.receive_admitted {header bs : Bytes} (h : s.Left (header ++ bs))
    (hlen : header.length = 4) (hsmall : header.toNat ≤ maxFrameLength) :
    ∃ s' : ByteStreamPair, receive s = s'.readExactly header.toNat ∧ s'.Left bs := by
  obtain ⟨s', hread, hleft⟩ := h.readExactly_ok
  rw [hlen] at hread
  exact ⟨s', by simp [receive, hread, Nat.not_lt.mpr hsmall], hleft⟩

/-- A whole frame is received. -/
theorem Left.receive_frame {frame : ByteArray} {bs : Bytes} (h : s.Left (encode frame ++ bs))
    (hframe : frame.size ≤ maxFrameLength) :
    ∃ s', receive s = (.ok frame, s') ∧ s'.Left bs := by
  have hlength := toNat_lengthPrefix hframe
  rw [encode, List.append_assoc] at h
  obtain ⟨s₁, hreceive, h₁⟩ := h.receive_admitted (lengthPrefix_length _) (by rwa [hlength])
  obtain ⟨s₂, hread, h₂⟩ := h₁.readExactly_ok
  refine ⟨s₂, ?_, h₂⟩
  rw [hreceive, hlength, ← Bytes.ofFrame_length, hread, Bytes.toFrame_ofFrame]

/-- Of a frame that is cut short, its length or its bytes are missing. Nothing is left of it. -/
theorem Left.receive_part {frame : ByteArray} {cut : Nat} (h : s.Left ((encode frame).take cut))
    (hframe : frame.size ≤ maxFrameLength) (hcut : cut < 4 + frame.size) :
    ∃ s', receive s = (.error .streamEnded, s') ∧ s'.Left [] := by
  by_cases hheader : cut < 4
  · have hshort : ((encode frame).take cut).length < 4 := by simp; omega
    obtain ⟨s', hread, hleft⟩ := h.readExactly_error hshort
    exact ⟨s', by simp [receive, hread], hleft⟩
  · have hlength := toNat_lengthPrefix hframe
    rw [encode, List.take_append, lengthPrefix_length, List.take_of_length_le (by simp; omega)] at h
    obtain ⟨s₁, hreceive, h₁⟩ := h.receive_admitted (lengthPrefix_length _) (by rwa [hlength])
    rw [hreceive, hlength]
    exact h₁.readExactly_error (by simp; omega)

theorem Left.receive_nil (h : s.Left []) :
    ∃ s', receive s = (.error .streamEnded, s') ∧ s'.Left [] := by
  obtain ⟨s', hread, hleft⟩ := h.readExactly_error (by decide : ([] : Bytes).length < 4)
  exact ⟨s', by simp [receive, hread], hleft⟩

/-! ## Many frames -/

/-- What a number of calls receive. -/
def receives : Nat → ByteStreamPair → List (Except ChannelError ByteArray)
  | 0, _ => []
  | n + 1, s => (receive s).1 :: receives n (receive s).2

/-- The frames are received in order, and then the stream has ended, however often one asks. -/
def Yields (s : ByteStreamPair) (frames : List ByteArray) : Prop :=
  ∀ n, receives n s = (frames.take n).map .ok ++
    List.replicate (n - frames.length) (.error .streamEnded)

theorem yields_nil (h : s.Left []) : s.Yields [] := by
  intro n
  induction n generalizing s with
  | zero => rfl
  | succ n ih =>
    obtain ⟨s', hreceive, hleft⟩ := h.receive_nil
    simpa [receives, hreceive, List.replicate_succ] using ih hleft

theorem Yields.cons {s' : ByteStreamPair} {frame : ByteArray} {frames : List ByteArray}
    (h : s'.Yields frames) (hreceive : receive s = (.ok frame, s')) :
    s.Yields (frame :: frames) := by
  rintro (_ | n)
  · simp [receives]
  · simp [receives, hreceive, h n]

/-- A stream that has ended gives nothing any more. -/
theorem yields_of_ended {s' : ByteStreamPair} (h : s'.Left [])
    (hreceive : receive s = (.error .streamEnded, s')) : s.Yields [] := by
  rintro (_ | n)
  · rfl
  · simpa [receives, hreceive, List.replicate_succ] using yields_nil h n

/-- The first frames of a list are those that lie on the stream before a position. -/
structure LieBefore (cut : Nat) (frames complete : List ByteArray) : Prop where
  begins : complete <+: frames
  contained : (encodeAll complete).length ≤ cut
  /-- Of the next frame something is missing. -/
  next : ∀ frame, complete ++ [frame] <+: frames →
    cut < (encodeAll (complete ++ [frame])).length

theorem LieBefore.cons {cut : Nat} {frame : ByteArray} {frames complete : List ByteArray}
    (h : LieBefore cut frames complete) :
    LieBefore (4 + frame.size + cut) (frame :: frames) (frame :: complete) where
  begins := List.cons_prefix_cons.mpr ⟨rfl, h.begins⟩
  contained := by
    have := h.contained
    simp only [encodeAll_cons, List.length_append, encode_length]
    omega
  next frame' hframe' := by
    rw [List.cons_append] at hframe' ⊢
    have := h.next frame' (List.cons_prefix_cons.mp hframe').2
    simp only [encodeAll_cons, List.length_append, encode_length]
    omega

/-- Before a position inside the first frame lies no frame. -/
theorem lieBefore_nil {cut : Nat} {frames : List ByteArray}
    (h : ∀ frame, [frame] <+: frames → cut < 4 + frame.size) : LieBefore cut frames [] where
  begins := List.nil_prefix
  contained := Nat.zero_le cut
  next frame hframe := by simpa using h frame hframe

/-- From a stream of frames that is cut anywhere, the frames before the cut are received. -/
theorem receives_of_left {frames : List ByteArray} {cut : Nat}
    (h : s.Left ((encodeAll frames).take cut)) (hframes : ∀ frame ∈ frames,
      frame.size ≤ maxFrameLength) : ∃ complete, LieBefore cut frames complete ∧
      s.Yields complete := by
  induction frames generalizing s cut with
  | nil => exact ⟨[], lieBefore_nil (by simp), yields_nil (by simpa using h)⟩
  | cons frame frames ih =>
    obtain ⟨hframe, hrest⟩ := List.forall_mem_cons.mp hframes
    rw [encodeAll_cons, List.take_append, encode_length] at h
    by_cases hcut : cut < 4 + frame.size
    · rw [Nat.sub_eq_zero_of_le (Nat.le_of_lt hcut), List.take_zero, List.append_nil] at h
      obtain ⟨s', hreceive, hleft⟩ := h.receive_part hframe hcut
      refine ⟨[], lieBefore_nil fun frame' hframe' => ?_, yields_of_ended hleft hreceive⟩
      rwa [(List.cons_prefix_cons.mp hframe').1]
    · obtain ⟨rest, rfl⟩ := Nat.exists_eq_add_of_le (Nat.le_of_not_lt hcut)
      rw [List.take_of_length_le (by simp), Nat.add_sub_cancel_left] at h
      obtain ⟨s', hreceive, hleft⟩ := h.receive_frame hframe
      obtain ⟨complete, hbefore, hyields⟩ := ih hleft hrest
      exact ⟨frame :: complete, hbefore.cons, hyields.cons hreceive⟩

/-- Where nothing is cut off, all frames lie before the position. -/
theorem LieBefore.eq_of_length_le {cut : Nat} {frames complete : List ByteArray}
    (h : LieBefore cut frames complete) (hcut : (encodeAll frames).length ≤ cut) :
    complete = frames := by
  obtain ⟨rest, rfl⟩ := h.begins
  cases rest with
  | nil => rw [List.append_nil]
  | cons frame rest =>
    have hnext := h.next frame ⟨rest, by simp⟩
    simp [encodeAll] at hnext hcut
    omega

/-! ## Sending and receiving -/

/-- The stream on which what was written to another one comes in, up to a position. -/
def readBack (s : ByteStreamPair) (cut : Nat) : ByteStreamPair where
  incoming := s.written.extract 0 cut

theorem left_readBack (s : ByteStreamPair) (cut : Nat) :
    (s.readBack cut).Left ((Bytes.ofFrame s.written).take cut) :=
  ⟨[], by simp [readBack, Bytes.ofFrame_extract], rfl⟩

/-- What is sent on a new stream arrives, as far as the stream gets. -/
structure Transmits (attempts : List ByteArray) : Prop where
  /-- A frame is refused exactly if it is too long. -/
  results : ∀ s, (sendAll attempts s).1 = attempts.map fun frame =>
    if frame.size ≤ maxFrameLength then .ok () else .error .frameTooLarge
  /-- A frame that is refused leaves the stream as it was. -/
  refused : ∀ frame ∈ attempts, maxFrameLength < frame.size →
    ∀ s, send frame s = (.error .frameTooLarge, s)
  /-- All that changes is what is written: the frames that are not too long are added to it. -/
  writes : ∀ s, (sendAll attempts s).2 =
    { s with written := s.written ++ (encodeAll (sendable attempts)).toFrame }
  /-- The frames that are sent are received. -/
  arrives : ∀ incoming cut, (sendAll attempts { incoming }).2.written.size ≤ cut →
    ((sendAll attempts { incoming }).2.readBack cut).Yields (sendable attempts)
  /-- Where the stream is cut, the frames before the cut are received. -/
  arrivesUntil : ∀ incoming cut, ∃ complete, LieBefore cut (sendable attempts) complete ∧
    ((sendAll attempts { incoming }).2.readBack cut).Yields complete

theorem ofFrame_written_sendAll (attempts : List ByteArray) (incoming : ByteArray) :
    Bytes.ofFrame (sendAll attempts { incoming }).2.written = encodeAll (sendable attempts) := by
  rw [sendAll_eq, ByteArray.empty_append, Bytes.ofFrame_toFrame]

theorem transmits (attempts : List ByteArray) : Transmits attempts := by
  have hshort : ∀ frame ∈ sendable attempts, frame.size ≤ maxFrameLength := fun frame hframe => by
    simpa using (List.mem_filter.mp hframe).2
  have hcut (incoming : ByteArray) (cut : Nat) : ∃ complete,
      LieBefore cut (sendable attempts) complete ∧
        ((sendAll attempts { incoming }).2.readBack cut).Yields complete :=
    receives_of_left (ofFrame_written_sendAll attempts incoming ▸ left_readBack _ cut) hshort
  refine ⟨fun s => by rw [sendAll_eq], fun _ _ hlong _ => send_of_lt hlong,
    fun s => by rw [sendAll_eq], fun incoming cut hsize => ?_, hcut⟩
  obtain ⟨complete, hbefore, hyields⟩ := hcut incoming cut
  rw [← Bytes.ofFrame_length, ofFrame_written_sendAll] at hsize
  exact hbefore.eq_of_length_le hsize ▸ hyields

theorem readExactly_ne_incomingTooLarge (count : Nat) (s : ByteStreamPair) :
    (s.readExactly count).1 ≠ .error .incomingTooLarge := by
  rw [readExactly]
  split <;> simp

/-- Of the lengths, those above the limit are refused. -/
theorem Left.receive_eq_incomingTooLarge_iff {header bs : Bytes} (h : s.Left (header ++ bs))
    (hlen : header.length = 4) :
    (receive s).1 = .error .incomingTooLarge ↔ maxFrameLength < header.toNat := by
  refine ⟨fun hrefused => ?_, fun hlarge => ?_⟩
  · by_contra hsmall
    obtain ⟨s', hreceive, -⟩ := h.receive_admitted hlen (Nat.le_of_not_lt hsmall)
    exact readExactly_ne_incomingTooLarge _ s' (hreceive ▸ hrefused)
  · obtain ⟨s', hreceive, -⟩ := h.receive_oversized hlen hlarge
    rw [hreceive]

/-- Frames are transmitted as far as a stream gets, whatever else one tries to send in between. Of
all lengths a stream may come with, exactly those are refused with which nothing is sent, and what
comes after them is not consumed. -/
theorem framing_faithful (attempts : List ByteArray) :
    Transmits attempts ∧
      ∀ (s : ByteStreamPair) (header rest : Bytes), header.length = 4 → s.Left (header ++ rest) →
        ((receive s).1 = .error .incomingTooLarge ↔ maxFrameLength < header.toNat) ∧
          (maxFrameLength < header.toNat → (receive s).2.Left rest) := by
  refine ⟨transmits attempts, fun s header rest hlen hleft =>
    ⟨hleft.receive_eq_incomingTooLarge_iff hlen, fun hlarge => ?_⟩⟩
  obtain ⟨s', hreceive, hrest⟩ := hleft.receive_oversized hlen hlarge
  rwa [hreceive]

end ByteStreamPair

end SigmaProofs
