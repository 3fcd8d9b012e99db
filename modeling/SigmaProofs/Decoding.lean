import SigmaProofs.Error

/-!
# Decoders

A decoder reads a value off the front of a list of symbols (bytes or characters). Its cursor also
counts the containers of the message that are open. `Decoder.inContainer` opens one for the extent
of another decoder and refuses to open more than `maxNesting`. A decoder returns its cursor in any
case, so that the count is seen after a failure too.
-/

namespace SigmaProofs

/-- Why an input cannot be decoded. -/
inductive DecodeFault where
  /-- The input does not have the form of the value. -/
  | malformed
  /-- More containers are open than allowed. -/
  | nestedTooDeeply
  /-- The input has the form of a value that is refused. -/
  | refused (cause : ConfigError)
deriving DecidableEq, Repr

/-- How many containers of a message may be open at a time. -/
def maxNesting : Nat := 32

/-- The text of a fault, if it has one of its own. -/
def DecodeFault.message? : DecodeFault → Option String
  | .malformed => none
  | .nestedTooDeeply => some s!"message nesting exceeds {maxNesting} levels"
  | .refused cause => some cause.message

/-- What is left of an input, and how many containers are open. -/
structure Cursor (ι : Type) where
  rest : List ι
  depth : Nat
deriving DecidableEq, Repr

/-- A decoder of values in `α` from symbols in `ι`. -/
def Decoder (ι α : Type) : Type := Cursor ι → Except DecodeFault α × Cursor ι

namespace Decoder

variable {ι α β : Type}

/-- Reads nothing and gives `a`. -/
protected def pure (a : α) : Decoder ι α := fun c => (.ok a, c)

/-- Goes on with the value that `d` gives. -/
protected def bind (d : Decoder ι α) (f : α → Decoder ι β) : Decoder ι β := fun c =>
  match d c with
  | (.ok a, c) => f a c
  | (.error fault, c) => (.error fault, c)

instance : Monad (Decoder ι) where
  pure := Decoder.pure
  bind := Decoder.bind

/-- Gives up. -/
def fail (fault : DecodeFault) : Decoder ι α := fun c => (.error fault, c)

/-- The input does not have the form of the value. -/
def malformed : Decoder ι α := fail .malformed

/-- A reading of what is left: a value and the new rest, or no value. -/
def ofRest (read : List ι → Option (α × List ι)) : Decoder ι α := fun c =>
  match read c.rest with
  | some (a, rest) => (.ok a, { c with rest })
  | none => (.error .malformed, c)

/-- What is left of the input. -/
def rest : Decoder ι (List ι) := fun c => (.ok c.rest, c)

/-- A value that may be refused. -/
def ofExcept : Except ConfigError α → Decoder ι α
  | .ok a => Decoder.pure a
  | .error cause => fail (.refused cause)

/-- A value or nothing. -/
def ofOption : Option α → Decoder ι α
  | some a => Decoder.pure a
  | none => malformed

/-- Reads `d` inside one more open container. -/
def inContainer (d : Decoder ι α) : Decoder ι α := fun c =>
  if maxNesting ≤ c.depth then (.error .nestedTooDeeply, c)
  else
    let (result, c) := d { c with depth := c.depth + 1 }
    (result, { c with depth := c.depth - 1 })

/-- Reads that many values. -/
def times (d : Decoder ι α) : Nat → Decoder ι (List α)
  | 0 => Decoder.pure []
  | n + 1 => d.bind fun a => (times d n).bind fun as => Decoder.pure (a :: as)

/-- Decodes an input from its start, where no container is open: the value and what is left. -/
def run (d : Decoder ι α) (input : List ι) : Except DecodeFault (α × List ι) :=
  match d ⟨input, 0⟩ with
  | (.ok a, c) => .ok (a, c.rest)
  | (.error fault, _) => .error fault

end Decoder

/-- The first `n` symbols and the rest, if there are that many. -/
def splitExactly {ι : Type} : Nat → List ι → Option (List ι × List ι)
  | 0, rest => some ([], rest)
  | _ + 1, [] => none
  | n + 1, x :: rest => (splitExactly n rest).map fun (front, rest) => (x :: front, rest)

end SigmaProofs
