import RoleMining.Analysis.Basic
import RoleMining.Population.Payload
import RoleMining.Service.Basic

/-!
# Endpoints

What the service answers where. A request with bad values is answered as a bad request; what fails
otherwise is an error of the service.
-/
namespace RoleMining

inductive Endpoint where
  | health
  | defaults
  | validation
  | analysis
  | detection
  /-- The place of static files, of which there are none. -/
  | files
deriving DecidableEq, Repr

namespace Endpoint

def filesPath : String := "/static/"

def isFilePath (path : String) : Bool :=
  filesPath.toList.isPrefixOf path.toList &&
    match path.toList.drop filesPath.length with
    | c :: _ => c != '/'
    | [] => false

def ofPath? (path : String) : Option Endpoint :=
  if path == "/api/health" then some .health
  else if path == "/api/config/defaults" then some .defaults
  else if path == "/api/config/validate" then some .validation
  else if path == "/api/analysis" then some .analysis
  else if path == "/api/detection" then some .detection
  else if isFilePath path then some .files
  else none

/-- The methods an endpoint takes, in order. -/
def methods : Endpoint → List String
  | .health | .defaults | .files => ["GET", "HEAD", "OPTIONS"]
  | .validation | .analysis | .detection => ["OPTIONS", "POST"]

end Endpoint

/-- Where a request leads. -/
inductive Route where
  | endpoint (e : Endpoint)
  /-- The path has doubled slashes and would lead somewhere without them. -/
  | redirect
  | wrongMethod (allowed : List String)
  | nowhere
deriving DecidableEq, Repr

/-- Letter case does not count in a method. -/
def Route.of (method path : String) : Route :=
  let method := Text.upper method
  let path := Target.rooted path
  match Endpoint.ofPath? path with
  | some e => if e.methods.contains method then .endpoint e else .wrongMethod e.methods
  | none =>
    match Endpoint.ofPath? (String.ofList (Target.mergeSlashes path.toList)) with
    | some e => if e.methods.contains method then .redirect else .wrongMethod e.methods
    | none => .nowhere

namespace Service

/-- The status of an answer with its value. -/
structure Answer where
  status : Nat
  value : Option Json := none

def Answer.good (value : Json) : Answer := ⟨200, some value⟩

/-- The answer to a failed request. -/
def Answer.ofFailure : Failure → Answer
  | .configuration complaints => ⟨400, some (.object [("error", .str "Invalid configuration"),
      ("validation_errors", .ofStrings (complaints.map Complaint.message))])⟩
  | failure =>
    if failure.isBadValue then ⟨400, some (.object [("error", .str failure.message)])⟩
    else ⟨500, none⟩

def Answer.of : Except Failure Answer → Answer
  | .ok answer => answer
  | .error failure => .ofFailure failure

def health : Json :=
  .object [("status", .str "ok"), ("service", .str "role-analysis"), ("version", .str "0.1.0")]

/-- The default settings, or those of the preset that the query names first. -/
def defaults (s : Service) (query : List (String × String)) : Except Failure Json :=
  (Settings.ofSheet (Settings.preset ((query.lookup "preset").getD "default"))).copied s.room

/-- A report on the settings that overrides give. -/
def validate (s : Service) (overrides : Json) : Except Failure Json := do
  let settings := Settings.ofSheet (← Settings.overridden overrides)
  let complaints ← settings.complaints
  return .object [("valid", .bool complaints.isEmpty),
    ("validation_errors", .ofStrings (complaints.map Complaint.message)),
    ("config", ← settings.copied s.room)]

/-- The checked settings of a request. -/
def settingsOf (fields : Fields) : Except Failure Settings := do
  let given := (fields.lookup "config").getD .null
  if given.isEmptyValue then Settings.defaults.ensureValid
  else if given.isObject then (Settings.ofSheet (← Settings.overridden given)).ensureValid
  else throw (.configurationError (.notObject "config"))

def recordsOf (fields : Fields) : Except Failure (List Record) :=
  Population.ofPayload ((fields.lookup "records").getD .null)

/-- The analysis of the population that a request brings. -/
def analyze (s : Service) (finder : CommunityFinder) (fields : Fields) : Except Failure Json := do
  let settings ← settingsOf fields
  let records ← recordsOf fields
  Analysis.answer s.room finder settings records

/-- The patterns of the whole population, taken as one cluster. -/
def detect (fields : Fields) : Except Failure Json := do
  let settings ← settingsOf fields
  let records ← recordsOf fields
  let mode := (← settings.session.policy).mode
  let chunks := match mode with
    | .user => Chunk.ofRoles records
    | .role => Chunk.ofUsers records
  let thresholds ← settings.detection.check
  let (_, patterns) ← Pattern.detect mode thresholds chunks (Run.unwatched : Run Unit)
  return .object [("mode", .str mode.name), ("chunks", .list (chunks.map Chunk.toJson)),
    ("patterns", .list (patterns.map Pattern.toJson)),
    ("detected_reduction_metric", .float (Pattern.reductionMetric patterns))]

def tooLarge (s : Service) : Answer :=
  ⟨413, some (.object [("error", .str "Population payload too large"),
    ("max_bytes", s.bodyLimit)])⟩

/-- Answer a request that has to bring an object. -/
def withObject (s : Service) (r : Request) (answer : Fields → Except Failure Json) :
    Except Failure Answer := do
  match ← r.content s.bodyLimit with
  | .tooLarge => return s.tooLarge
  | .value (.object fields) => return .good (← answer fields)
  | _ => return ⟨400, some (.object [("error", .str "JSON object body required")])⟩

def answerAt (s : Service) (finder : CommunityFinder) (r : Request) :
    Endpoint → Except Failure Answer
  | .health => return .good health
  | .defaults => return .good (← s.defaults r.target.query)
  | .validation => do
    match ← r.content s.bodyLimit with
    | .tooLarge => return s.tooLarge
    | .absent => return .good (← s.validate .null)
    | .value overrides => return .good (← s.validate overrides)
  | .analysis => s.withObject r (s.analyze finder)
  | .detection => s.withObject r detect
  | .files => return ⟨404, none⟩

def answerRoute (s : Service) (finder : CommunityFinder) (r : Request) : Route → Answer
  | .endpoint e =>
    if Text.upper r.method == "OPTIONS" then ⟨200, none⟩ else .of (s.answerAt finder r e)
  | .redirect => ⟨308, none⟩
  | .wrongMethod allowed => ⟨405, some (.object [("error", .str "Method not allowed"),
      ("allowed", .ofStrings allowed)])⟩
  | .nowhere => ⟨404, none⟩

/-- The reply to a request; one that asks for the head only brings no value. -/
def reply (s : Service) (finder : CommunityFinder) (r : Request) : Reply :=
  let answer := s.answerRoute finder r (Route.of r.method r.target.path)
  { status := answer.status
    value := if r.method == "HEAD" then none else answer.value
    allowOrigin := Origin.answered s.origins (r.header? "Origin") }

end Service
end RoleMining
