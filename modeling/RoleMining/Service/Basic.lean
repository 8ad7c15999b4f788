import RoleMining.Json.Reader
import RoleMining.Service.Origin
import RoleMining.Service.Target
import RoleMining.Settings.Resolve

/-!
# The service

How a service is set up from its environment, and the requests and replies it deals with.
-/
namespace RoleMining

structure Service where
  logLevel : Nat
  origins : List String
  /-- The largest body in bytes; `null` for any size. -/
  bodyLimit : Json
  /-- The levels of nesting that the stack has room for while a request is answered. -/
  room : Nat := stackRoom

namespace Service

/-- Words that switch something on. -/
def affirmatives : List String := ["1", "true", "yes", "y", "on"]

def isSwitchedOn (env : Environment) (name : String) : Bool :=
  ((env.find? name).map fun text =>
    affirmatives.contains (Text.lowerLatin (Text.strip text))).getD false

def debugLevel : Nat := 10

def infoLevel : Nat := 20

/-- The levels by name; `WARN` and `FATAL` are second names. -/
def levels : List (String × Nat) :=
  [("NOTSET", 0), ("DEBUG", debugLevel), ("INFO", infoLevel), ("WARNING", 30), ("WARN", 30),
   ("ERROR", 40), ("CRITICAL", 50), ("FATAL", 50)]

/-- The level of the messages that are logged; an unknown name counts as none. -/
def logLevelOf (env : Environment) : Nat :=
  if isSwitchedOn env "FLASK_DEBUG" then debugLevel
  else
    let name := Text.upper (Text.strip ((env.find? "LOG_LEVEL").getD "INFO"))
    (levels.lookup name).getD infoLevel

def defaultOrigins : List String := ["http://localhost:3000", "http://localhost:5173"]

/-- The origins listed between commas, or the default ones when none is. -/
def originsOf (env : Environment) : List String :=
  let parts := Target.splitOn ',' ((env.find? "CORS_ORIGINS").getD "").toList
  let listed := (parts.map fun part => Text.strip (String.ofList part)).filter
    fun text => !text.isEmpty
  if listed.isEmpty then defaultOrigins else listed

/-- Fifty mebibytes. -/
def defaultBodyLimit : Int := 52428800

def bodyLimitOf (env : Environment) : Int :=
  ((env.find? "MAX_CONTENT_LENGTH_BYTES").bind Text.integer?).getD defaultBodyLimit

/-- The service of an environment; an option given beside it goes first. -/
def ofEnvironment (env : Environment) (options : Json) : Service where
  logLevel := logLevelOf env
  origins := originsOf env
  bodyLimit := (options.field? "MAX_CONTENT_LENGTH").getD (.int (bodyLimitOf env))

end Service

structure Body where
  contentType : String
  text : String

structure Request where
  method : String
  target : Target
  headers : List (String × String)
  body : Option Body

namespace Request

/-- A header's value; letter case does not count in its name. -/
def header? (r : Request) (name : String) : Option String :=
  (r.headers.find? fun (n, _) => Text.lowerLatin n == Text.lowerLatin name).map Prod.snd

/-- The media type without its parameters. -/
def mediaType (contentType : String) : String :=
  Text.lowerLatin (Text.strip (String.ofList (Target.cut ';' contentType.toList).1))

def isJsonType (contentType : String) : Bool :=
  let type := mediaType contentType
  type == "application/json" ||
    ("application/".toList.isPrefixOf type.toList && "+json".toList.isSuffixOf type.toList)

/-- What a request brings. -/
inductive Content where
  | absent
  | tooLarge
  | value (v : Json)

/-- Whether a body of so many bytes is beyond a limit. -/
def exceeds (limit : Json) (size : Nat) : Except Failure Bool :=
  match limit with
  | .null => .ok false
  | .bool b => .ok (decide ((if b then 1 else 0) < size))
  | limit =>
    match limit.number? with
    | some bound => .ok (bound.below (.int size))
    | none => .error .wrongType

/-- The JSON value of the body. A body of another type, or one that cannot be read, counts as
absent; an empty body has no size. -/
def content (r : Request) (limit : Json) : Except Failure Content :=
  match r.body with
  | none => .ok .absent
  | some body => do
    if !isJsonType body.contentType || body.text.isEmpty then return .absent
    if ← exceeds limit body.text.utf8ByteSize then return .tooLarge
    let text := match body.text.toList with
      | '\ufeff' :: rest => String.ofList rest
      | _ => body.text
    return match Json.parse? text with
      | some v => .value v
      | none => .absent

end Request

/-- A reply: its status, its JSON value unless it has none, and the origin it is open to. -/
structure Reply where
  status : Nat
  value : Option Json
  allowOrigin : Option String

end RoleMining
