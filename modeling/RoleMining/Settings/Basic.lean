import RoleMining.Json.Basic
import RoleMining.Ledger

/-!
# Settings of an analysis

A session says how a population is clustered, the detection thresholds say what counts as a
pattern, and the runtime fields say how the work is run. A field holds the value it was given,
checked or not: an unusual value is shown in a complaint and in the echoed settings.
-/
namespace RoleMining

structure Session where
  processMode : Json := .str "user"
  clusteringMethod : Json := .str "leiden"
  similarityThreshold : Json := .float 0.6
  minSharedProperties : Json := .int 2
  resolution : Json := .float 0.3
  randomSeed : Json := .int 42
  minMembers : Json := .int 5
  minProperties : Json := .int 2
  allowOverlap : Json := .bool false
  minOverlapCoverage : Json := .float 0.8
  maxClustersPerMember : Json := .int 3

structure Detection where
  minFrequency : Json := .float 0.0
  maxFrequency : Json := .float 1.0
  minIntersection : Json := .int 2
  minSupport : Json := .int 2

structure Runtime where
  numWorkers : Json := .int 4
  progressInterval : Json := .int 10000
  logLevel : Json := .str "INFO"

structure Settings where
  session : Session := {}
  detection : Detection := {}
  runtime : Runtime := {}

instance : Inhabited Session := ⟨{}⟩
instance : Inhabited Detection := ⟨{}⟩
instance : Inhabited Runtime := ⟨{}⟩
instance : Inhabited Settings := ⟨{}⟩

/-- Named values, as they stand in an object. -/
abbrev Fields := List (String × Json)

namespace Session

/-- The session's fields under the names that objects give them. -/
def fields (s : Session) : Fields :=
  [("process_mode", s.processMode),
   ("clustering_method", s.clusteringMethod),
   ("similarity_threshold", s.similarityThreshold),
   ("min_shared_properties", s.minSharedProperties),
   ("leiden_resolution", s.resolution),
   ("leiden_random_seed", s.randomSeed),
   ("min_members_count", s.minMembers),
   ("min_properties_count", s.minProperties),
   ("allow_overlap", s.allowOverlap),
   ("min_overlap_coverage", s.minOverlapCoverage),
   ("max_clusters_per_member", s.maxClustersPerMember)]

def names : List String := (fields {}).map Prod.fst

/-- A field that is not given has its default; a name that no field has is passed over. -/
def ofFields (given : Fields) : Session :=
  let defaults : Session := {}
  let take (name : String) (default : Json) := (valueAt name given).getD default
  { processMode := take "process_mode" defaults.processMode
    clusteringMethod := take "clustering_method" defaults.clusteringMethod
    similarityThreshold := take "similarity_threshold" defaults.similarityThreshold
    minSharedProperties := take "min_shared_properties" defaults.minSharedProperties
    resolution := take "leiden_resolution" defaults.resolution
    randomSeed := take "leiden_random_seed" defaults.randomSeed
    minMembers := take "min_members_count" defaults.minMembers
    minProperties := take "min_properties_count" defaults.minProperties
    allowOverlap := take "allow_overlap" defaults.allowOverlap
    minOverlapCoverage := take "min_overlap_coverage" defaults.minOverlapCoverage
    maxClustersPerMember := take "max_clusters_per_member" defaults.maxClustersPerMember }

def toJson (s : Session) : Json := .object s.fields

end Session

namespace Detection

def fields (d : Detection) : Fields :=
  [("min_frequency", d.minFrequency),
   ("max_frequency", d.maxFrequency),
   ("min_intersection", d.minIntersection),
   ("min_support", d.minSupport)]

def names : List String := (fields {}).map Prod.fst

def ofFields (given : Fields) : Detection :=
  let defaults : Detection := {}
  let take (name : String) (default : Json) := (valueAt name given).getD default
  { minFrequency := take "min_frequency" defaults.minFrequency
    maxFrequency := take "max_frequency" defaults.maxFrequency
    minIntersection := take "min_intersection" defaults.minIntersection
    minSupport := take "min_support" defaults.minSupport }

def toJson (d : Detection) : Json := .object d.fields

end Detection

namespace Runtime

def fields (r : Runtime) : Fields :=
  [("num_workers", r.numWorkers),
   ("progress_interval", r.progressInterval),
   ("log_level", r.logLevel)]

def names : List String := (fields {}).map Prod.fst

def ofFields (given : Fields) : Runtime :=
  let defaults : Runtime := {}
  let take (name : String) (default : Json) := (valueAt name given).getD default
  { numWorkers := take "num_workers" defaults.numWorkers
    progressInterval := take "progress_interval" defaults.progressInterval
    logLevel := take "log_level" defaults.logLevel }

end Runtime

/-- The settings as one object: the two sections, then the runtime fields. -/
def Settings.toJson (s : Settings) : Json :=
  .object ([("session", s.session.toJson), ("detection", s.detection.toJson)] ++ s.runtime.fields)

end RoleMining
