import SigmaProofs.Group.Schnorr
import SigmaProofs.Json.Value
import SigmaProofs.Json.Writer
import SigmaProofs.Soundness
import SigmaProofs.Text.Hexadecimal

/-!
# Configuration of a session

A configuration chooses the soundness parameter and, if one is needed, a Schnorr group: by name,
or by parameters in hexadecimal. The parameters are kept as they were written; they are read when
the group is asked for.
-/

namespace SigmaProofs

/-- A Schnorr group in a configuration. -/
inductive GroupChoice where
  /-- The 2048-bit MODP group of RFC 3526. -/
  | modp2048
  | explicit (p q g : List Char)
deriving DecidableEq, Repr

/-- What a session is run with. -/
structure Config where
  soundness : Soundness := .standard
  group : Option GroupChoice := none
deriving DecidableEq, Repr

namespace GroupChoice

def modp2048Name : String := "rfc3526-2048"

/-- A parameter in hexadecimal. -/
def parameter (name : String) (text : List Char) : Except ConfigError Nat :=
  match Text.readHex? text with
  | some n => .ok n
  | none => .error (.groupParameter name)

/-- The chosen group. Explicit parameters are checked. -/
def toGroup : GroupChoice → Except ConfigError SchnorrGroup
  | modp2048 => .ok .modp2048
  | explicit p q g => do
    let p ← parameter "p" p
    let q ← parameter "q" q
    let g ← parameter "g" g
    SchnorrGroup.ofParameters p q g

/-! ## Format -/

def toJson : GroupChoice → List Char
  | modp2048 => Json.quote modp2048Name.toList
  | explicit p q g =>
    Json.writeObject [("p", Json.quote p), ("q", Json.quote q), ("g", Json.quote g)]

/-- The text of the only entry with the given name; the entry must not occur twice. -/
def soleText? (entries : List (List Char × Json.Value)) (name : String) : Option (List Char) :=
  match entries.filter (·.1 == name.toList) with
  | [(_, .string text)] => some text
  | _ => none

/-- A name, also as the name of the only entry of an object, whose value is null then; or an
object with the parameters, which may have other entries. -/
def ofValue? : Json.Value → Option GroupChoice
  | .string name => if name = modp2048Name.toList then some modp2048 else none
  | .object entries =>
    match entries with
    | [(name, .null)] => if name = modp2048Name.toList then some modp2048 else none
    | _ => do
      return explicit (← soleText? entries "p") (← soleText? entries "q") (← soleText? entries "g")
  | _ => none

end GroupChoice

namespace Config

/-- The configured group, which has to be there. -/
def schnorrGroup (config : Config) : Except ConfigError SchnorrGroup :=
  match config.group with
  | some choice => choice.toGroup
  | none => .error (.invalidGroup .notConfigured)

/-! ## Format -/

def toJson (config : Config) : List Char :=
  Json.writeObject [
    ("soundness_bits", Json.decimal config.soundness.bits),
    ("group", match config.group with
      | some choice => choice.toJson
      | none => ['n', 'u', 'l', 'l'])]

/-- A soundness parameter as its number of bits. -/
def soundnessDecoder : Decoder Char Soundness := do .ofExcept (Soundness.ofBits (← Json.word))

/-- A group, or null for none. -/
def groupDecoder (room : Nat) : Decoder Char (Option GroupChoice) := do
  match ← Json.value room with
  | .null => return none
  | v => some <$> .ofOption (GroupChoice.ofValue? v)

/-- A field of a configuration. -/
inductive Setting where
  | soundness (t : Soundness)
  | group (choice : Option GroupChoice)

/-- A configuration with the given settings, and the standard ones for the rest. -/
def ofSettings (settings : List Setting) : Config :=
  settings.foldl (fun config setting =>
    match setting with
    | .soundness t => { config with soundness := t }
    | .group choice => { config with group := choice }) {}

def jsonDecoder (room : Nat) : Decoder Char Config := do
  let settings ← Json.record room
    [("soundness_bits", fun _ => .soundness <$> soundnessDecoder),
      ("group", fun room => .group <$> groupDecoder room)]
    .refused .allowed
  return ofSettings (settings.map Prod.snd)

/-- The configuration that a JSON text stands for. -/
def ofJson (text : String) : Except DecodeFault Config :=
  Json.readText (jsonDecoder Json.room₀) text

end Config

end SigmaProofs
