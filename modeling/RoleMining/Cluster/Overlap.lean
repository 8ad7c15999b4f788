import RoleMining.Chunk.Basic
import RoleMining.Settings.Policy
import RoleMining.Cluster.Basic

/-!
# Overlapping groups

A chunk may join further groups besides its own. It joins those whose property union it covers well
enough, the best covered first, until it is in as many groups as it may be.
-/
namespace RoleMining.Cluster

/-- The chunks of a group, by position. -/
def chunksAt (chunks : List Chunk) (group : List Nat) : Except Failure (List Chunk) :=
  group.mapM fun pos =>
    match chunks[pos]? with
    | some c => .ok c
    | none => .error .noSuchPosition

/-- The summed weight of a group and the union of its properties. -/
def profile (chunks : List Chunk) (group : List Nat) : Except Failure (Int × IdSet) := do
  let members ← chunksAt chunks group
  return (total (members.map (·.weight)), unionOf members)

/-- The groups with enough members and enough properties. -/
def largeGroups (policy : Policy) (chunks : List Chunk) (groups : List (List Nat)) :
    Except Failure (List (List Nat)) :=
  groups.filterM fun group => do
    let (weight, properties) ← profile chunks group
    return !((Number.int weight).below policy.minMembers ||
      (Number.int properties.size).below policy.minProperties)

/-- How a chunk lies over a group: what they share, as a number and as a part of the group. -/
structure Cover where
  group : Nat
  shared : Nat
  coverage : Binary64

namespace Cover

/-- The better cover first: by coverage, by shared properties, by the group's position. -/
def ordered (a b : Cover) : Bool :=
  if b.coverage.below a.coverage then true
  else if a.coverage.below b.coverage then false
  else if a.shared ≠ b.shared then decide (b.shared < a.shared)
  else decide (a.group ≤ b.group)

/-- Whether a chunk whose own group is `home` may join. -/
def qualifies (policy : Policy) (home : Option Nat) (c : Cover) : Bool :=
  policy.minCoverage.atMost (.float c.coverage) &&
    policy.minShared.atMost (.int c.shared) && home != some c.group

end Cover

/-- The covers of a property set over the groups' unions, where anything is shared at all. -/
def coversOf (unions : List IdSet) (properties : IdSet) : List Cover :=
  unions.zipIdx.filterMap fun (union, group) =>
    let shared := (properties.inter union).size
    if shared = 0 then none
    else some { group, shared, coverage := Arithmetic.ratio shared union.size }

/-- The last group that holds a position. -/
def homeOf (groups : List (List Nat)) (pos : Nat) : Option Nat :=
  (groups.zipIdx.filter fun (group, _) => group.contains pos).getLast?.map (·.2)

/-- How many further groups a chunk may join. -/
def slots (policy : Policy) (home : Option Nat) : Except Failure Nat :=
  let taken : Int := if home.isSome then 1 else 0
  match policy.maxClusters + .int (-taken) with
  | .int n => .ok n.toNat
  | .float x => if x.below 0 then .ok 0 else .error .wrongType

/-- The groups that a chunk joins, in the order of joining. -/
def joins (policy : Policy) (unions : List IdSet) (home : Option Nat) (properties : IdSet) :
    Except Failure (List Nat) := do
  let covers := (coversOf unions properties).filter (Cover.qualifies policy home)
  if covers.isEmpty then return []
  let slots ← slots policy home
  return ((covers.mergeSort Cover.ordered).take slots).map (·.group)

/-- The groups with the chunks that join them added behind, in the order of the chunks. The rows of
the assignment table stand for the chunks that have members. -/
def overlapped (policy : Policy) (chunks : List Chunk) (groups : List (List Nat)) :
    Except Failure (List (List Nat)) := do
  let rows := (← Chunk.expand chunks).map (·.properties)
  let known := rows.foldl IdSet.union .empty
  let unions ← groups.mapM fun group => do
    let (_, properties) ← profile chunks group
    if properties.isSubset known then return properties else throw .unknownProperty
  let added ← (List.range chunks.length).mapM fun pos => do
    match rows[pos]? with
    | some properties => return (pos, ← joins policy unions (homeOf groups pos) properties)
    | none => throw .noSuchPosition
  return groups.zipIdx.map fun (group, index) =>
    group ++ (added.filter fun (_, joined) => joined.contains index).map (·.1)

end RoleMining.Cluster
