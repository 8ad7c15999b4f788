import RoleMining.Cluster.Overlap

/-!
# Assembling clusters

Groups of chunk positions become clusters: the largest first, numbered from one.
-/
namespace RoleMining.Cluster

/-- The similarity of two positions, the earlier one first. -/
abbrev Similarities := Ledger (Nat × Nat) Binary64

/-- A group without repetition, in ascending order. -/
def tidy (group : List Nat) : List Nat := group.eraseDups.mergeSort

/-- The known similarities of every two positions of a group. -/
def internal (similarities : Similarities) (group : List Nat) : List Binary64 :=
  let rec go : List Nat → List Binary64
    | [] => []
    | a :: later => later.filterMap (fun b => similarities.find? (a, b)) ++ go later
  go group

/-- A cluster before it has a number. -/
structure Draft where
  members : IdSet
  properties : IdSet
  chunkKeys : List (List String)
  statistics : Statistics Binary64

/-- More members first; of equal counts the smaller property key. -/
def Draft.ordered (a b : Draft) : Bool :=
  b.statistics.membersCount < a.statistics.membersCount ||
    (a.statistics.membersCount == b.statistics.membersCount &&
      a.properties.keyAtMost b.properties)

def draft (chunks : List Chunk) (similarities : Similarities) (group : List Nat) :
    Except Failure Draft := do
  let group := tidy group
  let members ← chunksAt chunks group
  return {
    members := members.foldl (fun ids c => ids.addAll c.members) .empty
    properties := unionOf members
    chunkKeys := members.map (·.properties)
    statistics := .ofChunks members (internal similarities group) }

def number (mode : Mode) (drafts : List Draft) : List Cluster :=
  drafts.zipIdx.map fun (d, index) =>
    { id := index + 1, mode, members := d.members, properties := d.properties,
      chunkKeys := d.chunkKeys, statistics := d.statistics }

/-- The clusters of some groups. -/
def assemble (mode : Mode) (chunks : List Chunk) (similarities : Similarities)
    (groups : List (List Nat)) : Except Failure (List Cluster) := do
  let drafts ← groups.mapM (draft chunks similarities)
  return number mode (drafts.mergeSort Draft.ordered)

end RoleMining.Cluster
