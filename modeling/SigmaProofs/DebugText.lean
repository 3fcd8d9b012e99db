import SigmaProofs.Prover
import SigmaProofs.Verifier

/-!
# Texts of compositions for logs

A composition is shown by its number of branches, its soundness parameter and its own state, but
not by its branches. Basic protocols have no such text. What a pending OR composition keeps is shown
in full.
-/

namespace SigmaProofs

namespace DebugText

/-- Items in brackets. -/
def list (items : List String) : String := "[" ++ String.intercalate ", " items ++ "]"

/-- A value that may be missing. -/
def option : Option String → String
  | none => "None"
  | some text => "Some(" ++ text ++ ")"

/-- A name with fields. -/
def fields (name : String) (entries : List (String × String)) : String :=
  name ++ " \x7b " ++
    String.intercalate ", " (entries.map fun (field, text) => field ++ ": " ++ text) ++ " \x7d"

def bytes (bs : Bytes) : String := list (bs.map fun b => toString b.toNat)

def parameter (t : Soundness) : String := "SoundnessParam(" ++ toString t.bits ++ ")"

end DebugText

open DebugText

mutual

def Message.debugText : Message → String
  | .element encoding => "Element(" ++ bytes encoding ++ ")"
  | .integer value => "BigInt(" ++ toString value ++ ")"
  | .elementPair a b => fields "Dh" [("a", bytes a), ("b", bytes b)]
  | .opening u v => fields "Pedersen" [("u", toString u), ("v", toString v)]
  | .productCommitment a1 a2 => fields "DjProductFirst" [("a1", toString a1), ("a2", toString a2)]
  | .productResponse z1 z2 z3 =>
    fields "DjProductSecond" [("z1", toString z1), ("z2", toString z2), ("z3", toString z3)]
  | .multiple parts => "Multiple(" ++ list (Message.debugTexts parts) ++ ")"
  | .orResponse challenges responses =>
    fields "Or" [("challenges", list (challenges.map bytes)),
      ("responses", list (Message.debugTexts responses))]

def Message.debugTexts : List Message → List String
  | [] => []
  | m :: ms => Message.debugText m :: Message.debugTexts ms

end

def ChallengeSlot.debugText (slot : ChallengeSlot) : String :=
  fields "ChallengeSlot" [("soundness", parameter slot.soundness),
    ("challenge", option (slot.challenge.map bytes))]

def OrPending.debugText (pending : OrPending) : String :=
  fields "OrState" [("real_index", toString pending.index),
    ("challenges", list (pending.challenges.map bytes)),
    ("responses", list (pending.responses.map fun r => option (r.map Message.debugText)))]

/-- The text of a composition of provers. -/
def Prover.debugText? {E : Type} : Prover E → Option String
  | .all t isPending branches =>
    some (fields "SigmaAndProverComputation" [("branches", toString branches.length),
      ("soundness", parameter t), ("is_pending", if isPending then "true" else "false")])
  | .any t pending branches =>
    some (fields "SigmaOrProverComputation" [("branches", toString branches.length),
      ("soundness", parameter t), ("state", option (pending.map OrPending.debugText))])
  | _ => none

/-- The text of a composition of verifiers. -/
def Verifier.debugText? {E : Type} : Verifier E → Option String
  | .all slot branches =>
    some (fields "SigmaAndVerifierComputation" [("branches", toString branches.length),
      ("challenge", slot.debugText)])
  | .any slot branches =>
    some (fields "SigmaOrVerifierComputation" [("branches", toString branches.length),
      ("challenge", slot.debugText)])
  | _ => none

/-- The text of a composition of simulators. -/
def Protocol.debugText? {E : Type} : Protocol E → Option String
  | .all t branches =>
    some (fields "SigmaAndSimulator" [("branches", toString branches.length),
      ("soundness", parameter t)])
  | .any t branches =>
    some (fields "SigmaOrSimulator" [("branches", toString branches.length),
      ("soundness", parameter t)])
  | _ => none

end SigmaProofs
