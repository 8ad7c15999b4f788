import RoleMining.Failure
import RoleMining.Settings.Basic

/-!
# Sheets of settings

A layer of settings may give a field in its section or flat beside the sections. A sheet is a layer
in order: each field in its section, a section's own value before a flat one, and every other entry
apart. One sheet over another wins field by field.
-/
namespace RoleMining

abbrev Layer := Ledger String Json

namespace Layer

/-- The name under which a scalar that serves as a key is written. -/
def keyName? : Json → Option String
  | .str s => some s
  | .null => some "null"
  | .bool b => some (if b then "true" else "false")
  | .int n => some (Text.ofInt n)
  | .float x => some x.toText
  | _ => none

/-- The two parts of a pair: two items, two characters, or the two names of an object. -/
def pairParts : Json → Except Failure (List Json)
  | .list items => .ok items
  | .str s => .ok (s.toList.map fun c => .str c.toString)
  | .object fields => .ok (fields.map fun field => .str field.1)
  | _ => .error .wrongType

/-- Read a list of pairs from a position on, later pairs winning. -/
def ofPairs (layer : Layer) : Nat → List Json → Except Failure Layer
  | _, [] => .ok layer
  | index, pair :: rest => do
    match ← pairParts pair with
    | [key, value] =>
      match keyName? key with
      | some name => ofPairs (layer.record name value) (index + 1) rest
      | none => .error .wrongType
    | parts => .error (.pairLength index parts.length)

/-- A layer is an object or a list of pairs; an empty value is an empty layer. -/
def ofJson (value : Json) : Except Failure Layer :=
  if value.isEmptyValue then .ok .empty
  else
    match value with
    | .object fields => .ok (Ledger.ofList fields)
    | .list items => ofPairs .empty 0 items
    | .str s => ofPairs .empty 0 (s.toList.map fun c => .str c.toString)
    | _ => .error .wrongType

end Layer

structure Sheet where
  session : Layer := .empty
  detection : Layer := .empty
  other : Layer := .empty

namespace Sheet

/-- The section with the flat values of its own names below the values it has. -/
def withFlat (names : List String) (flat placed : Layer) : Layer :=
  names.foldl
    (fun acc name =>
      match flat.find? name with
      | some value => acc.recordNew name value
      | none => acc)
    placed

/-- Names that a sheet keeps apart from its other entries. -/
def isPlaced (name : String) : Bool :=
  name == "session" || name == "detection" || Session.names.contains name ||
    Detection.names.contains name

def ofLayer (layer : Layer) : Except Failure Sheet := do
  let session ← Layer.ofJson ((layer.find? "session").getD .null)
  let detection ← Layer.ofJson ((layer.find? "detection").getD .null)
  return {
    session := withFlat Session.names layer session
    detection := withFlat Detection.names layer detection
    other := layer.filter fun name _ => !isPlaced name }

def ofJson (value : Json) : Except Failure Sheet := do
  ofLayer (← Layer.ofJson value)

/-- The sheet with another one laid over it. -/
def merge (base top : Sheet) : Sheet where
  session := base.session.update top.session
  detection := base.detection.update top.detection
  other := base.other.update top.other

def toJson (sheet : Sheet) : Json :=
  .object (sheet.other.entries ++
    [("session", .object sheet.session.entries), ("detection", .object sheet.detection.entries)])

end Sheet

/-- The settings that a sheet spells, each field not given at its default. -/
def Settings.ofSheet (sheet : Sheet) : Settings where
  session := .ofFields sheet.session.entries
  detection := .ofFields sheet.detection.entries
  runtime := .ofFields sheet.other.entries

def Settings.ofJson (value : Json) : Except Failure Settings := do
  return Settings.ofSheet (← Sheet.ofJson value)

/-- The sheet on which every field is given. -/
def Settings.sheet (s : Settings) : Sheet where
  session := .ofList s.session.fields
  detection := .ofList s.detection.fields
  other := .ofList s.runtime.fields

/-! ### Copies -/

/-- The levels that a copy of nested values has room for. The stack of the interpreter holds a
thousand frames, of which a copy takes two for each level; a dozen are taken when it starts. -/
def stackRoom : Nat := 494

/-- The settings as one object, in which the values of the two sections are copies. -/
def Settings.copied (room : Nat) (s : Settings) : Except Failure Json :=
  if (s.session.fields ++ s.detection.fields).all fun field => field.2.depth ≤ room then
    .ok s.toJson
  else .error .nestedTooDeep

/-- A section read by itself: an object, or an empty value for the defaults. -/
def sectionFields (value : Json) : Except Failure Fields :=
  if value.isEmptyValue then .ok []
  else
    match value with
    | .object fields => .ok fields
    | _ => .error .noFields

def Session.ofJson (value : Json) : Except Failure Session := do
  return Session.ofFields (← sectionFields value)

def Detection.ofJson (value : Json) : Except Failure Detection := do
  return Detection.ofFields (← sectionFields value)

end RoleMining
