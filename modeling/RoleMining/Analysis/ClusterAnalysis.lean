import RoleMining.Cluster.Basic
import RoleMining.Pattern

/-!
# The analysis of one cluster

The members of a cluster are mined twice: for the sets they share, and for patterns. Users are mined
for roles that go together; roles are turned back into the users that hold them, each with its own
weight, and mined for users that go together.
-/
namespace RoleMining

/-- What mining a group of members finds. -/
structure Mined where
  intersections : List Intersection
  patterns : List Pattern
  reductionMetric : Binary64

namespace Mined

variable {α : Type}

/-- The known records among some identities, in their order. -/
def membersOf (records : Ledger String Record) (oids : List String) : List Record :=
  oids.filterMap records.find?

/-- The chunks in which patterns among members of a mode are looked for. -/
def chunksOf (mode : Mode) (weights : Ledger String Int) (members : List Record) :
    Except Failure (List Chunk) := do
  match mode with
  | .user => return Chunk.ofRoles members
  | .role => return Chunk.ofUsers (← invertWeighted weights members)

/-- Mine the members of a mode. The thresholds are checked by each of the two searches. -/
def ofMembers (mode : Mode) (detection : Detection) (frequencies : Option Frequencies)
    (weights : Ledger String Int) (members : List Record) (run : Run α) :
    Except Failure (Run α × Mined) := do
  let limits ← Intersection.Limits.check detection.minIntersection detection.minFrequency
    detection.maxFrequency
  let some frequencies := frequencies | throw (.missing "frequency_map")
  let (run, intersections) := Intersection.extract limits frequencies members run
  let chunks ← chunksOf mode weights members
  let thresholds ← detection.check
  let (run, patterns) ← Pattern.detect mode thresholds chunks run
  return (run, { intersections, patterns, reductionMetric := Pattern.reductionMetric patterns })

def fields (m : Mined) : Fields :=
  [("intersections", .list (m.intersections.map Intersection.toJson)),
    ("patterns", .list (m.patterns.map Pattern.toJson)),
    ("detected_reduction_metric", .float m.reductionMetric)]

end Mined

structure ClusterAnalysis where
  cluster : Cluster
  mined : Mined

def ClusterAnalysis.toJson (a : ClusterAnalysis) : Json :=
  .object (("cluster", a.cluster.toJson) :: a.mined.fields)

end RoleMining
