import SigmaProofs.Sampling

/-!
# Random values from a stream of bytes

All values are read off one endless stream, as runs of bytes with nothing skipped between them.

* An integer of `b` bits takes the fewest 32-bit words that hold it, least significant word first;
  the surplus bits of the last word are shifted out.
* A number below `m` is the first integer of the bit length of `m` that is less than `m`.
* A unit modulo `n` is the first of the numbers `1 + k`, `k` below `n - 1`, that is coprime
  with `n`.

A stream could reject for ever, so the search ends after `attempts` tries. On every stream, each
request that has an answer gets one that fits (`answer_fits`). So what holds of a computation for all
answers that fit holds of its run on every stream (`Sampling.Always.run`), if it only asks for what
there is (`Sampling.Answerable`).
-/

namespace SigmaProofs

/-- A stream of bytes and how many of them were drawn. -/
structure ByteStream where
  byteAt : Nat → UInt8
  drawn : Nat

namespace ByteStream

/-- How often a draw is repeated before the search is given up. -/
def attempts : Nat := 2 ^ (24 : Nat)

/-- The next `count` bytes. -/
def drawBytes (s : ByteStream) (count : Nat) : Bytes × ByteStream :=
  ((List.range count).map fun i => s.byteAt (s.drawn + i), { s with drawn := s.drawn + count })

/-- The integer of `bits` bits that a run of words stands for, the surplus of the last word
shifted out. -/
def integerOfWords (bits : Nat) (run : Bytes) : Nat :=
  let words := (bits + 31) / 32
  let high := 2 ^ (32 * (words - 1))
  let value := ofLittleEndian run
  value % high + high * (value / high / 2 ^ (32 * words - bits))

/-- The next integer of `bits` bits. -/
def drawInteger (s : ByteStream) (bits : Nat) : Nat × ByteStream :=
  let (run, s) := s.drawBytes (4 * ((bits + 31) / 32))
  (integerOfWords bits run, s)

/-- The first result of `draw` that is accepted, or `otherwise` after too many tries. -/
def firstAccepted (draw : ByteStream → Nat × ByteStream) (accept : Nat → Bool) (otherwise : Nat) :
    Nat → ByteStream → Nat × ByteStream
  | 0, s => (otherwise, s)
  | tries + 1, s =>
    let (value, s) := draw s
    if accept value then (value, s) else firstAccepted draw accept otherwise tries s

/-- A number below `bound`. -/
def drawBelow (s : ByteStream) (bound : Nat) : Nat × ByteStream :=
  firstAccepted (·.drawInteger (bitLength bound)) (· < bound) 0 attempts s

/-- A number from 1 up to `modulus` that is coprime with it. -/
def drawUnit (s : ByteStream) (modulus : Nat) : Nat × ByteStream :=
  firstAccepted (fun s => let (k, s) := s.drawBelow (modulus - 1); (k + 1, s))
    (fun value => value < modulus && Nat.gcd value modulus == 1 && 0 < value) 1 attempts s

/-- The answer to a request. -/
def answer (s : ByteStream) : (r : Request) → r.Answer × ByteStream
  | .bytes count => s.drawBytes count
  | .below bound => s.drawBelow bound
  | .unit modulus => s.drawUnit modulus

end ByteStream

/-- Runs a computation on a stream of bytes. -/
def Sampling.run {α : Type} : Sampling α → ByteStream → α × ByteStream
  | .done a, s => (a, s)
  | .ask r next, s =>
    let (answer, s) := s.answer r
    (next answer).run s

namespace ByteStream

theorem firstAccepted_mem {draw : ByteStream → Nat × ByteStream} {accept : Nat → Bool}
    {otherwise : Nat} {P : Nat → Prop} (h : ∀ n, accept n = true → P n) (ho : P otherwise)
    (tries : Nat) (s : ByteStream) : P (firstAccepted draw accept otherwise tries s).1 := by
  induction tries generalizing s with
  | zero => exact ho
  | succ tries ih =>
    simp only [firstAccepted]
    split
    · exact h _ ‹_›
    · exact ih _

theorem drawBelow_lt (s : ByteStream) {bound : Nat} (h : 0 < bound) :
    (s.drawBelow bound).1 < bound :=
  firstAccepted_mem (P := (· < bound)) (by simp) h _ _

theorem drawUnit_fits (s : ByteStream) {modulus : Nat} (h : 1 < modulus) :
    (Request.unit modulus).Fits (s.drawUnit modulus).1 :=
  firstAccepted_mem (P := (Request.unit modulus).Fits)
    (fun n hn => by
      simp only [Bool.and_eq_true, decide_eq_true_eq, beq_iff_eq] at hn
      exact ⟨hn.2, hn.1.1, hn.1.2⟩)
    (by simp [Request.Fits, h]) _ _

end ByteStream

/-! ## Requests that have an answer -/

/-- There is an answer that fits. -/
def Request.Answerable (r : Request) : Prop := ∃ answer, r.Fits answer

/-- On a stream, a request gets an answer that fits. -/
theorem ByteStream.answer_fits (s : ByteStream) {r : Request} (h : r.Answerable) :
    r.Fits (s.answer r).1 := by
  obtain ⟨a, ha⟩ := h
  cases r with
  | bytes count => simp [answer, drawBytes, Request.Fits]
  | below bound => exact s.drawBelow_lt (Nat.lt_of_le_of_lt (Nat.zero_le a) ha)
  | unit modulus => exact s.drawUnit_fits (Nat.lt_of_le_of_lt ha.1 ha.2.1)

namespace Sampling

variable {α β : Type} {c : Sampling α}

/-- All requests have answers, as long as those that were given fit. -/
def Answerable : Sampling α → Prop
  | done _ => True
  | ask r next => r.Answerable ∧ ∀ answer, r.Fits answer → (next answer).Answerable

theorem answerable_pure (a : α) : (pure a : Sampling α).Answerable := trivial

/-- One computation after another; what always holds of the result of the first may be used. -/
theorem Answerable.bind_always {P : α → Prop} {f : α → Sampling β} (hc : c.Answerable)
    (hP : c.Always P) (hf : ∀ a, P a → (f a).Answerable) : (c >>= f).Answerable := by
  induction c with
  | done a => exact hf a hP
  | ask r next ih =>
    exact ⟨hc.1, fun answer h => ih answer (hc.2 answer h) (hP answer h)⟩

theorem Answerable.bind {f : α → Sampling β} (hc : c.Answerable) (hf : ∀ a, (f a).Answerable) :
    (c >>= f).Answerable :=
  hc.bind_always (P := fun _ => True) (always_of_forall fun _ => trivial) fun a _ => hf a

theorem answerable_drawBytes (count : Nat) : (drawBytes count).Answerable :=
  ⟨⟨List.replicate count 0, List.length_replicate⟩, fun _ _ => trivial⟩

theorem answerable_drawBelow {bound : Nat} (h : 0 < bound) : (drawBelow bound).Answerable :=
  ⟨⟨0, h⟩, fun _ _ => trivial⟩

theorem answerable_drawUnit {modulus : Nat} (h : 1 < modulus) : (drawUnit modulus).Answerable :=
  ⟨⟨1, Nat.one_pos, h, Nat.coprime_one_left modulus⟩, fun _ _ => trivial⟩

/-- What holds for all answers that fit holds of the run on a stream. -/
theorem Always.run {P : α → Prop} (h : c.Always P) (hc : c.Answerable) (s : ByteStream) :
    P (c.run s).1 := by
  induction c generalizing s with
  | done a => exact h
  | ask r next ih =>
    have hfits := s.answer_fits hc.1
    exact ih _ (h _ hfits) (hc.2 _ hfits) _

theorem run_bind (c : Sampling α) (f : α → Sampling β) (s : ByteStream) :
    (c >>= f).run s = (f (c.run s).1).run (c.run s).2 := by
  induction c generalizing s with
  | done a => rfl
  | ask r next ih => exact ih _ _

end Sampling

end SigmaProofs
