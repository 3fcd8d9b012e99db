import SigmaProofs.DamgardJurik

/-!
# Statements and witnesses

A `Statement` is what a prover and a verifier agree on, a `Witness` the secret that makes it true,
and `Witnessed` both together. The generator `g` in the descriptions is that of the group in which
a protocol runs.

`Witnessed.all` and `Witnessed.any` put inputs of branches together; an OR composition takes the
witness of exactly one branch, and the other branches are statements alone.
-/

namespace SigmaProofs

/-! ## Statements -/

/-- Which secret the prover of an encrypted value knows. -/
inductive ElGamalSecret where
  /-- The randomness of the ciphertext. -/
  | randomness
  /-- The private key of the receiver. -/
  | privateKey
deriving DecidableEq, Repr

/-- A public statement about group elements in `E` or Damgård–Jurik ciphertexts. -/
inductive Statement (E : Type) where
  /-- Some `w` has `h = g ^ w`. -/
  | dlog (h : E)
  /-- Some `w` has `u = g ^ w` and `v = h ^ w`. -/
  | dhTuple (h u v : E)
  /-- Some `w` has `power = base ^ w` for all bases and their powers. -/
  | dhExtended (bases powers : List E)
  /-- Some `x` and `r` have `commitment = g ^ r * h ^ x`. -/
  | pedersenKnowledge (h commitment : E)
  /-- Some `r` has `commitment = g ^ r * h ^ value`. -/
  | pedersenValue (h commitment : E) (value : Nat)
  /-- Some `w` has `publicKey = g ^ w`. -/
  | elGamalKnowledge (publicKey : E)
  /-- Some `r` has `c1 = g ^ r` and `c2 = value * publicKey ^ r`. -/
  | elGamalCommitted (publicKey c1 c2 value : E)
  /-- The ciphertext `(c1, c2)` encrypts `value` for `publicKey`. -/
  | elGamalEncrypted (publicKey c1 c2 value : E) (secret : ElGamalSecret)
  /-- The ciphertext encrypts zero. -/
  | djZero (key : DamgardJurik.Key) (ciphertext : Nat)
  /-- The ciphertext encrypts the plaintext. -/
  | djValue (key : DamgardJurik.Key) (ciphertext plaintext : Nat)
  /-- The plaintext of `c3` is the product of those of `c1` and `c2`. -/
  | djProduct (key : DamgardJurik.Key) (c1 c2 c3 : Nat)
  /-- All of the statements hold. -/
  | all (statements : List (Statement E))
  /-- At least one of the statements holds. -/
  | any (statements : List (Statement E))

namespace Statement

variable {E : Type}

/-- The name of a statement's form. -/
def form : Statement E → String
  | dlog _ => "Dlog"
  | dhTuple .. => "DH tuple"
  | dhExtended .. => "extended DH tuple"
  | pedersenKnowledge .. => "Pedersen commitment knowledge"
  | pedersenValue .. => "Pedersen committed value"
  | elGamalKnowledge _ => "ElGamal commitment knowledge"
  | elGamalCommitted .. => "ElGamal committed value"
  | elGamalEncrypted .. => "ElGamal encrypted value"
  | djZero .. => "Damgård–Jurik encrypted zero"
  | djValue .. => "Damgård–Jurik encrypted value"
  | djProduct .. => "Damgård–Jurik product"
  | all _ => "AND composition"
  | any _ => "OR composition"

/-- The statement has another form than the expected one. -/
def unexpected (expected : String) (s : Statement E) : ConfigError :=
  .inputMismatch expected s.form

/-! ### Taking a statement apart -/

def expectDlog : Statement E → Except ConfigError E
  | dlog h => .ok h
  | s => .error (s.unexpected "Dlog")

def expectDhTuple : Statement E → Except ConfigError (E × E × E)
  | dhTuple h u v => .ok (h, u, v)
  | s => .error (s.unexpected "DH tuple")

/-- The bases and as many powers, at least one. -/
def expectDhExtended : Statement E → Except ConfigError (List E × List E)
  | dhExtended bases powers =>
    if bases.isEmpty || bases.length != powers.length then .error (.invalidInput .unequalBases)
    else .ok (bases, powers)
  | s => .error (s.unexpected "extended DH tuple")

def expectPedersenKnowledge : Statement E → Except ConfigError (E × E)
  | pedersenKnowledge h commitment => .ok (h, commitment)
  | s => .error (s.unexpected "Pedersen commitment knowledge")

def expectDjZero : Statement E → Except ConfigError (DamgardJurik.Key × Nat)
  | djZero key ciphertext => .ok (key, ciphertext)
  | s => .error (s.unexpected "Damgård–Jurik encrypted zero")

def expectDjProduct : Statement E → Except ConfigError (DamgardJurik.Key × Nat × Nat × Nat)
  | djProduct key c1 c2 c3 => .ok (key, c1, c2, c3)
  | s => .error (s.unexpected "Damgård–Jurik product")

def expectAll : Statement E → Except ConfigError (List (Statement E))
  | all statements => .ok statements
  | s => .error (s.unexpected "AND composition")

def expectAny : Statement E → Except ConfigError (List (Statement E))
  | any statements => .ok statements
  | s => .error (s.unexpected "OR composition")

end Statement

/-! ## Witnesses -/

/-- The secret part of a prover's input. -/
inductive Witness where
  /-- A discrete logarithm, or the randomness of a ciphertext. -/
  | exponent (w : Nat)
  /-- The opening of a Pedersen commitment. -/
  | opening (value randomness : Nat)
  /-- The randomness of a Damgård–Jurik ciphertext. -/
  | djRandomness (r : Nat)
  /-- The plaintext of the first ciphertext of a product, and the randomness of all three. -/
  | djProduct (x1 r1 r2 r3 : Nat)
  /-- A witness for each statement of an AND composition. -/
  | all (witnesses : List Witness)
  /-- A witness for one statement of an OR composition. -/
  | any (index : Nat) (witness : Witness)

namespace Witness

/-- The name of a witness's form. -/
def form : Witness → String
  | exponent _ => "exponent"
  | opening .. => "Pedersen opening"
  | djRandomness _ => "Damgård–Jurik randomness"
  | djProduct .. => "Damgård–Jurik product witness"
  | all _ => "AND witness"
  | any .. => "OR witness"

/-- The witness has another form than the expected one. -/
def unexpected (expected : String) (w : Witness) : ConfigError :=
  .inputMismatch expected w.form

/-! ### Taking a witness apart -/

def expectExponent : Witness → Except ConfigError Nat
  | exponent w => .ok w
  | w => .error (w.unexpected "exponent")

def expectOpening : Witness → Except ConfigError (Nat × Nat)
  | opening value randomness => .ok (value, randomness)
  | w => .error (w.unexpected "Pedersen opening")

def expectDjRandomness : Witness → Except ConfigError Nat
  | djRandomness r => .ok r
  | w => .error (w.unexpected "Damgård–Jurik randomness")

def expectDjProduct : Witness → Except ConfigError (Nat × Nat × Nat × Nat)
  | djProduct x1 r1 r2 r3 => .ok (x1, r1, r2, r3)
  | w => .error (w.unexpected "Damgård–Jurik product witness")

def expectAll : Witness → Except ConfigError (List Witness)
  | all witnesses => .ok witnesses
  | w => .error (w.unexpected "AND witness")

def expectAny : Witness → Except ConfigError (Nat × Witness)
  | any index witness => .ok (index, witness)
  | w => .error (w.unexpected "OR witness")

end Witness

/-! ## Inputs of a prover -/

/-- A statement together with a witness for it. -/
structure Witnessed (E : Type) where
  statement : Statement E
  witness : Witness

/-- A branch of the input of an OR composition. -/
inductive Branch (E : Type) where
  /-- The statement whose witness is known. -/
  | known (input : Witnessed E)
  /-- A statement without a witness. -/
  | simulated (statement : Statement E)

namespace Branch

variable {E : Type}

def isKnown : Branch E → Bool
  | known _ => true
  | simulated _ => false

def statement : Branch E → Statement E
  | known input => input.statement
  | simulated statement => statement

def witness? : Branch E → Option Witness
  | known input => some input.witness
  | simulated _ => none

end Branch

namespace Witnessed

variable {E : Type}

/-- The input of an AND composition. -/
def all (inputs : List (Witnessed E)) : Witnessed E where
  statement := .all (inputs.map statement)
  witness := .all (inputs.map witness)

/-- The first branch with a witness, counted from `index`. -/
def firstKnown (index : Nat) : List (Branch E) → Option (Nat × Witness)
  | [] => none
  | b :: bs =>
    match b.witness? with
    | some w => some (index, w)
    | none => firstKnown (index + 1) bs

/-- The input of an OR composition, of which exactly one branch has a witness. -/
def any (branches : List (Branch E)) : Except ConfigError (Witnessed E) :=
  let known := branches.countP Branch.isKnown
  if known ≠ 1 then .error (.witnessCount known)
  else
    match firstKnown 0 branches with
    | some (index, w) => .ok ⟨.any (branches.map Branch.statement), .any index w⟩
    | none => .error (.witnessCount 0)

/-- The input of an OR composition from branches with their indexes, which have to be those from
zero without a gap. Of two branches with one index the later counts. -/
def anyIndexed (branches : List (Nat × Branch E)) : Except ConfigError (Witnessed E) :=
  let count := (branches.map Prod.fst).eraseDups.length
  match (List.range count).mapM fun i => branches.reverse.lookup i with
  | some ordered => any ordered
  | none => .error .sparseBranches

end Witnessed

end SigmaProofs
