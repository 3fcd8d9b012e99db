import SigmaProofs.Bytes
import SigmaProofs.Error

/-!
# Messages

The first and the second message of a protocol. Group elements appear in their encoded form, so a
message does not depend on a group.

* `form`: the name of a message's form; the `expect…` functions take a message apart and name
  both forms where they differ.
* `nesting`: how many containers lie inside each other.
* `beq_iff`: the comparison of messages decides equality.
-/

namespace SigmaProofs

/-- A message of a prover. -/
inductive Message where
  /-- An encoded group element. -/
  | element (encoding : Bytes)
  | integer (value : Nat)
  /-- Two encoded group elements, the commitment for a Diffie–Hellman tuple. -/
  | elementPair (a b : Bytes)
  /-- The response for the opening of a Pedersen commitment. -/
  | opening (u v : Nat)
  /-- The commitment for a product of Damgård–Jurik plaintexts. -/
  | productCommitment (a1 a2 : Nat)
  /-- The response for a product of Damgård–Jurik plaintexts. -/
  | productResponse (z1 z2 z3 : Nat)
  /-- The messages of several branches or bases, in order. -/
  | multiple (parts : List Message)
  /-- The response of an OR composition: a challenge and a response for each branch. -/
  | orResponse (challenges : List Bytes) (responses : List Message)
deriving Repr, Inhabited

namespace Message

/-- The name of a message's form. -/
def form : Message → String
  | element _ => "group element"
  | integer _ => "integer"
  | elementPair .. => "DH tuple"
  | opening .. => "Pedersen response"
  | productCommitment .. => "Damgård–Jurik product commitment"
  | productResponse .. => "Damgård–Jurik product response"
  | multiple _ => "multiple messages"
  | orResponse .. => "OR response"

/-! ## Taking a message apart -/

/-- The message has another form than the expected one. -/
def unexpected (expected : String) (m : Message) : ProtocolError :=
  .messageMismatch expected m.form

def expectElement : Message → Except ProtocolError Bytes
  | element encoding => .ok encoding
  | m => .error (m.unexpected "group element")

def expectInteger : Message → Except ProtocolError Nat
  | integer value => .ok value
  | m => .error (m.unexpected "integer")

def expectElementPair : Message → Except ProtocolError (Bytes × Bytes)
  | elementPair a b => .ok (a, b)
  | m => .error (m.unexpected "DH tuple")

def expectOpening : Message → Except ProtocolError (Nat × Nat)
  | opening u v => .ok (u, v)
  | m => .error (m.unexpected "Pedersen response")

def expectProductCommitment : Message → Except ProtocolError (Nat × Nat)
  | productCommitment a1 a2 => .ok (a1, a2)
  | m => .error (m.unexpected "Damgård–Jurik product commitment")

def expectProductResponse : Message → Except ProtocolError (Nat × Nat × Nat)
  | productResponse z1 z2 z3 => .ok (z1, z2, z3)
  | m => .error (m.unexpected "Damgård–Jurik product response")

def expectMultiple : Message → Except ProtocolError (List Message)
  | multiple parts => .ok parts
  | m => .error (m.unexpected "multiple messages")

def expectOrResponse : Message → Except ProtocolError (List Bytes × List Message)
  | orResponse challenges responses => .ok (challenges, responses)
  | m => .error (m.unexpected "OR response")

/-! ## Nesting -/

mutual

/-- How many containers lie inside each other at the deepest place. -/
def nesting : Message → Nat
  | multiple parts => nestingAll parts + 1
  | orResponse _ responses => nestingAll responses + 1
  | _ => 0

/-- The deepest nesting in a list of messages. -/
def nestingAll : List Message → Nat
  | [] => 0
  | m :: ms => max (nesting m) (nestingAll ms)

end

theorem nestingAll_le_iff {ms : List Message} {n : Nat} :
    nestingAll ms ≤ n ↔ ∀ m ∈ ms, m.nesting ≤ n := by
  induction ms with
  | nil => simp [nestingAll]
  | cons m ms ih => rw [nestingAll, Nat.max_le, ih, List.forall_mem_cons]

/-! ## Equality -/

mutual

/-- Whether two messages are equal. -/
def beq : Message → Message → Bool
  | element a, element b => a == b
  | integer a, integer b => a == b
  | elementPair a b, elementPair a' b' => a == a' && b == b'
  | opening u v, opening u' v' => u == u' && v == v'
  | productCommitment a b, productCommitment a' b' => a == a' && b == b'
  | productResponse x y z, productResponse x' y' z' => x == x' && y == y' && z == z'
  | multiple ms, multiple ms' => beqAll ms ms'
  | orResponse es ms, orResponse es' ms' => es == es' && beqAll ms ms'
  | _, _ => false

/-- Whether two lists of messages are equal. -/
def beqAll : List Message → List Message → Bool
  | [], [] => true
  | m :: ms, m' :: ms' => beq m m' && beqAll ms ms'
  | _, _ => false

end

mutual

theorem beq_iff : ∀ m m' : Message, beq m m' = true ↔ m = m'
  | multiple ms, multiple ms' => by simp [beq, beqAll_iff ms ms']
  | orResponse es ms, orResponse es' ms' => by simp [beq, beqAll_iff ms ms']
  | element _, m' => by cases m' <;> simp [beq]
  | integer _, m' => by cases m' <;> simp [beq]
  | elementPair .., m' => by cases m' <;> simp [beq]
  | opening .., m' => by cases m' <;> simp [beq]
  | productCommitment .., m' => by cases m' <;> simp [beq]
  | productResponse .., m' => by cases m' <;> simp [beq, and_assoc]
  | multiple _, element _ | multiple _, integer _ | multiple _, elementPair ..
  | multiple _, opening .. | multiple _, productCommitment .. | multiple _, productResponse ..
  | multiple _, orResponse .. => by simp [beq]
  | orResponse .., element _ | orResponse .., integer _ | orResponse .., elementPair ..
  | orResponse .., opening .. | orResponse .., productCommitment ..
  | orResponse .., productResponse .. | orResponse .., multiple _ => by simp [beq]

theorem beqAll_iff : ∀ ms ms' : List Message, beqAll ms ms' = true ↔ ms = ms'
  | [], [] => by simp [beqAll]
  | [], _ :: _ => by simp [beqAll]
  | _ :: _, [] => by simp [beqAll]
  | m :: ms, m' :: ms' => by simp [beqAll, beq_iff m m', beqAll_iff ms ms']

end

instance : DecidableEq Message := fun m m' => decidable_of_iff (beq m m' = true) (beq_iff m m')

end Message

end SigmaProofs
