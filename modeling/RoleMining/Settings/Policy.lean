import RoleMining.Frequency
import RoleMining.Settings.Validate

/-!
# Policies

What a stage reads from settings once they are checked: words and numbers instead of arbitrary
values.
-/
namespace RoleMining

/-- Whether users are clustered by their roles, or roles by their users. -/
inductive Mode where
  | user
  | role
deriving DecidableEq, Repr

namespace Mode

def name : Mode → String
  | .user => "user"
  | .role => "role"

def ofName? (name : String) : Option Mode := [Mode.user, .role].find? (·.name == name)

end Mode

/-- Communities of similar chunks, or every chunk by itself. -/
inductive Strategy where
  | communities
  | exact
deriving DecidableEq, Repr

def Strategy.ofName? : String → Option Strategy
  | "leiden" => some .communities
  | "exact" => some .exact
  | _ => none

/-- How a population is clustered. -/
structure Policy where
  mode : Mode
  strategy : Strategy
  minSimilarity : Number
  minShared : Number
  resolution : Number
  seed : Json
  minMembers : Number
  minProperties : Number
  allowOverlap : Bool
  minCoverage : Number
  maxClusters : Number

/-- What counts as a pattern. -/
structure Thresholds where
  band : Frequencies.Band
  minIntersection : Number
  minSupport : Number

namespace Session

def policy? (s : Session) : Option Policy := do
  let .str mode := s.processMode | none
  let .str method := s.clusteringMethod | none
  return {
    mode := ← Mode.ofName? mode
    strategy := ← Strategy.ofName? method
    minSimilarity := ← s.similarityThreshold.number?
    minShared := ← s.minSharedProperties.number?
    resolution := ← s.resolution.number?
    seed := s.randomSeed
    minMembers := ← s.minMembers.number?
    minProperties := ← s.minProperties.number?
    allowOverlap := !s.allowOverlap.isEmptyValue
    minCoverage := ← s.minOverlapCoverage.number?
    maxClusters := ← s.maxClustersPerMember.number? }

/-- The policy of a session without checking its ranges. -/
def policy (s : Session) : Except Failure Policy :=
  match s.policy? with
  | some policy => .ok policy
  | none => .error .wrongType

/-- The policy of a session that has nothing to complain about. -/
def check (s : Session) : Except Failure Policy := do
  ensureNone s.complaints
  s.policy

end Session

namespace Detection

def thresholds? (d : Detection) : Option Thresholds := do
  return {
    band := { low := ← d.minFrequency.number?, high := ← d.maxFrequency.number? }
    minIntersection := ← d.minIntersection.number?
    minSupport := ← d.minSupport.number? }

/-- The thresholds of options that have nothing to complain about. -/
def check (d : Detection) : Except Failure Thresholds := do
  ensureNone d.complaints
  match d.thresholds? with
  | some thresholds => return thresholds
  | none => throw .wrongType

end Detection
end RoleMining
