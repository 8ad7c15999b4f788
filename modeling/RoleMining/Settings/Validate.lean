import RoleMining.Failure
import RoleMining.Settings.Basic
import RoleMining.Text.UpperCase

/-!
# Validation

Every field is checked by itself, and all complaints are collected in the order of the fields; only
the order of the two frequencies is a matter of two fields. An integer beyond double precision
cannot be measured at all and fails the validation as a whole.
-/
namespace RoleMining

/-- The number that a value is; a Boolean and not-a-number are none. -/
def Json.measure : Json → Except Failure (Option Number)
  | .int n => if (Binary64.ofInt? n).isSome then .ok (some (.int n)) else .error .numberTooLarge
  | .float x => .ok (if x.isNaN then none else some (.float x))
  | _ => .ok none

/-- The range that a field has to lie in. -/
structure Bounds where
  low : Number
  lowAllowed : Bool := true
  high? : Option Number := none
  reason : String

namespace Bounds

def isTooLow (b : Bounds) (value : Number) : Bool :=
  if b.lowAllowed then value.below b.low else value.atMost b.low

def isTooHigh (b : Bounds) (value : Number) : Bool :=
  match b.high? with
  | some high => high.below value
  | none => false

def complaints (b : Bounds) (field : String) (value : Json) : Except Failure (List Complaint) :=
  match value with
  | .null => .ok [.required field]
  | _ => do
    match ← value.measure with
    | none => return [.notNumber field value]
    | some number =>
      let low := if b.isTooLow number then [.tooLow field number b.low b.reason] else []
      let high := if b.isTooHigh number then
        [.tooHigh field number (b.high?.getD b.low) b.reason] else []
      return low ++ high

end Bounds

def processModes : List String := ["user", "role"]

def clusteringMethods : List String := ["leiden", "exact"]

def logLevels : List String := ["DEBUG", "INFO", "WARNING", "ERROR", "CRITICAL"]

/-- A field whose value has to be one of a few words. -/
def wordComplaints (field : String) (value : Json) (listed : List String) : List Complaint :=
  match value with
  | .str s => if listed.contains s then [] else [.notListed field value listed]
  | _ => [.notListed field value listed]

namespace Session

def similarityComplaints (value : Json) : Except Failure (List Complaint) := do
  match ← value.measure with
  | none => return [.notNumber "similarity_threshold" value]
  | some number =>
    if number.atMost 0 then
      return [.outside "similarity_threshold" number
        "Similarity must be > 0 (0 links every pair of identities)"]
    else if (1 : Number).below number then
      return [.outside "similarity_threshold" number
        "Similarity above 1.0 can never be reached"]
    else return []

def maxClustersComplaints (value : Json) : Except Failure (List Complaint) := do
  match ← value.measure with
  | none => return [.notNumber "max_clusters_per_member" value]
  | some number =>
    if number.below 1 then return [.tooFewClusters 1]
    else if (10 : Number).below number then
      return [.tooManyClusters 10 "Max > 5 may indicate noisy assignments"]
    else return []

def sharedBounds : Bounds where
  low := 1
  reason := "Must be >= 1 for meaningful co-occurrence"

def membersBounds : Bounds where
  low := 1
  reason := "Clusters need at least one member"

def propertiesBounds : Bounds where
  low := 1
  reason := "Clusters need at least one property"

def resolutionBounds : Bounds where
  low := 0.0
  lowAllowed := false
  high? := some 5.0
  reason := "Resolution must be in (0, 5]"

def coverageBounds : Bounds where
  low := 0.0
  lowAllowed := false
  high? := some 1.0
  reason := "Coverage must be in (0, 1]"

def complaints (s : Session) : Except Failure (List Complaint) := do
  let mode := wordComplaints "process_mode" s.processMode processModes
  let method := wordComplaints "clustering_method" s.clusteringMethod clusteringMethods
  let similarity ← similarityComplaints s.similarityThreshold
  let shared ← sharedBounds.complaints "min_shared_properties" s.minSharedProperties
  let members ← membersBounds.complaints "min_members_count" s.minMembers
  let properties ← propertiesBounds.complaints "min_properties_count" s.minProperties
  let resolution ← resolutionBounds.complaints "leiden_resolution" s.resolution
  let coverage ← coverageBounds.complaints "min_overlap_coverage" s.minOverlapCoverage
  let clusters ← maxClustersComplaints s.maxClustersPerMember
  return mode ++ method ++ similarity ++ shared ++ members ++ properties ++ resolution ++
    coverage ++ clusters

end Session

namespace Detection

def frequencyBounds : Bounds where
  low := 0.0
  high? := some 1.0
  reason := "Frequency bounds must lie in [0, 1]"

def intersectionBounds : Bounds where
  low := 1
  reason := "Must be >= 1 for a meaningful shared set"

def supportBounds : Bounds where
  low := 1
  reason := "Must be >= 1 supporting identity"

/-- The complaint about two frequencies in the wrong order, when both are numbers. -/
def orderComplaints (low high : Option Number) : List Complaint :=
  match low, high with
  | some low, some high => if high.below low then [.bandReversed low high] else []
  | _, _ => []

def complaints (d : Detection) : Except Failure (List Complaint) := do
  let low ← frequencyBounds.complaints "min_frequency" d.minFrequency
  let high ← frequencyBounds.complaints "max_frequency" d.maxFrequency
  let order := orderComplaints (← d.minFrequency.measure) (← d.maxFrequency.measure)
  let intersection ← intersectionBounds.complaints "min_intersection" d.minIntersection
  let support ← supportBounds.complaints "min_support" d.minSupport
  return low ++ high ++ order ++ intersection ++ support

end Detection

namespace Runtime

def positiveComplaints (field : String) (value : Json) : Except Failure (List Complaint) := do
  match ← value.measure with
  | none => return [.notPositive field value]
  | some number => return if number.below 1 then [.notPositive field value] else []

def logLevelComplaints (value : Json) : List Complaint :=
  if logLevels.contains (Text.upper value.shown) then []
  else [.notListed "log_level" value logLevels]

def complaints (r : Runtime) : Except Failure (List Complaint) := do
  let workers ← positiveComplaints "num_workers" r.numWorkers
  let interval ← positiveComplaints "progress_interval" r.progressInterval
  return workers ++ interval ++ logLevelComplaints r.logLevel

end Runtime

/-- Why a value that is no session is refused. -/
def Session.refusal : Json → Failure
  | .null => .configurationError (.sectionRequired "session")
  | value => .configurationError (.unsupported "session configuration" value)

/-- Why a value that is no detection thresholds is refused. -/
def Detection.refusal : Json → Failure
  | .null => .configurationError .optionsRequired
  | value => .configurationError (.unsupported "detection options" value)

/-- The complaints about settings of which a section may be absent. -/
def Settings.complaintsAbout (session : Option Session) (detection : Option Detection)
    (runtime : Runtime) : Except Failure (List Complaint) := do
  let first ← match session with
    | some session => session.complaints
    | none => .ok [.sectionRequired "session"]
  let second ← match detection with
    | some detection => detection.complaints
    | none => .ok [.sectionRequired "detection"]
  return first ++ second ++ (← runtime.complaints)

def Settings.complaints (s : Settings) : Except Failure (List Complaint) :=
  complaintsAbout (some s.session) (some s.detection) s.runtime

/-- Pass when there is nothing to complain about. -/
def ensureNone (complaints : Except Failure (List Complaint)) : Except Failure Unit := do
  match ← complaints with
  | [] => return ()
  | found => throw (.configuration found)

def Settings.ensureValid (s : Settings) : Except Failure Settings := do
  ensureNone s.complaints
  return s

end RoleMining
