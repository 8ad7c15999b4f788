import RoleMining.Settings.Sheet
import RoleMining.Settings.Validate
import RoleMining.Json.Reader
import RoleMining.Json.Writer

/-!
# Where settings come from

Overrides are laid over the defaults; in a batch run the environment is laid over both. Settings
can be saved as a text and loaded again.
-/
namespace RoleMining

/-- Environment variables by name. -/
abbrev Environment := Ledger String String

namespace Environment

/-- A variable that is set and not empty. -/
def nonEmpty? (env : Environment) (name : String) : Option String :=
  (env.find? name).filter fun text => !text.isEmpty

end Environment

namespace Settings

def defaults : Settings := {}

/-- Few large patterns: a strict similarity and well supported patterns. -/
def conservative : Sheet where
  session := .ofList [("similarity_threshold", .float 0.75), ("leiden_resolution", .float 0.2),
    ("min_members_count", .int 10)]
  detection := .ofList [("min_frequency", .float 0.05), ("max_frequency", .float 0.9),
    ("min_intersection", .int 3), ("min_support", .int 5)]

/-- Many small patterns: a loose similarity, and members may belong to several clusters. -/
def aggressive : Sheet where
  session := .ofList [("similarity_threshold", .float 0.4), ("leiden_resolution", .float 0.5),
    ("min_members_count", .int 3), ("allow_overlap", .bool true)]
  detection := .ofList [("min_intersection", .int 2), ("min_support", .int 2)]

/-- The defaults with a named preset over them; an unknown name is no preset. -/
def preset (name : String) : Sheet :=
  if name == "conservative" then defaults.sheet.merge conservative
  else if name == "aggressive" then defaults.sheet.merge aggressive
  else defaults.sheet

/-- The defaults with overrides laid over them. -/
def overridden (overrides : Json) : Except Failure Sheet := do
  return defaults.sheet.merge (← Sheet.ofJson overrides)

/-- Checked settings from overrides: nothing for the defaults, or an object. -/
def resolve (overrides : Json) : Except Failure Settings := do
  match overrides with
  | .null => defaults.ensureValid
  | .object _ => (Settings.ofSheet (← overridden overrides)).ensureValid
  | value => throw (.configurationError (.unsupported "configuration" value))

/-- The layer that the environment spells: the log level and the number of workers. -/
def environmentLayer (env : Environment) : Except Failure Layer := do
  let level := match env.nonEmpty? "LOG_LEVEL" with
    | some text => [("log_level", Json.str (Text.upper (Text.strip text)))]
    | none => []
  let workers ← match env.nonEmpty? "NUM_WORKERS" with
    | some text =>
      match Text.integer? text with
      | some n => pure [("num_workers", Json.int n)]
      | none => throw (.configurationError (.environmentNotInteger "NUM_WORKERS" text))
    | none => pure []
  return .ofList (level ++ workers)

/-- A base with the environment laid over it. -/
def withEnvironment (env : Environment) (base : Json) : Except Failure Sheet := do
  let layer ← environmentLayer env
  return (← Sheet.ofJson base).merge (← Sheet.ofLayer layer)

/-- The checked settings of a batch run: the defaults, then a file's values, then the
environment. -/
def layered (file : Json) (env : Environment) : Except Failure Settings := do
  let base ← overridden file
  let top ← Sheet.ofLayer (← environmentLayer env)
  (Settings.ofSheet (base.merge top)).ensureValid

/-- The text of a saved file. Settings are not saved if a section nests too deep to be copied, or if
an integer is too long to be written. -/
def save (room : Nat) (s : Settings) : Except Failure String := do
  match (← s.copied room).render? .indented with
  | some text => return text
  | none => throw .numeralTooLong

/-- The settings that a saved file holds. -/
def load (text : String) : Except Failure Settings := do
  match Json.parse? text with
  | some value => Settings.ofJson value
  | none => throw .notJson

end Settings
end RoleMining
