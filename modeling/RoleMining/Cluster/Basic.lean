import RoleMining.Arithmetic
import RoleMining.Chunk.Basic
import RoleMining.Settings.Policy

/-!
# Clusters

A cluster is a group of chunks with its members, the union of their properties, and figures about
its membership. Figures are rounded to four places.
-/
namespace RoleMining

namespace Cluster

structure Statistics (α : Type) where
  membersCount : Int
  propertiesCount : Nat
  density : α
  mean : α
  smallest : Nat
  largest : Nat
  similarity : α

variable {α : Type} [Arithmetic α]

/-- The union of the chunks' properties. -/
def unionOf (chunks : List Chunk) : IdSet :=
  chunks.foldl (fun union c => union.addAll c.properties) .empty

/-- The figures of a group. Density is assignments by members times properties, the mean is
assignments by members. A chunk alone is as similar as can be; otherwise the similarity is the mean
of the similarities inside the group. -/
def Statistics.ofChunks (chunks : List Chunk) (similarities : List α) : Statistics α :=
  let members := total (chunks.map (·.weight))
  let properties := (unionOf chunks).size
  let assignments := total (chunks.map fun c => c.weight * (c.properties.length : Int))
  let sizes := chunks.map (·.properties.length)
  let round := Arithmetic.roundPlaces (α := α) 4
  let nought : α := Arithmetic.ofInt 0
  { membersCount := members
    propertiesCount := properties
    density :=
      if members * properties = 0 then nought
      else round (Arithmetic.ratio assignments (members * properties))
    mean := if members = 0 then nought else round (Arithmetic.ratio assignments members)
    smallest := sizes.min?.getD 0
    largest := sizes.max?.getD 0
    similarity :=
      if chunks.length = 1 then Arithmetic.ofInt 1
      else if similarities.isEmpty then nought
      else round (Arithmetic.pairwiseMean similarities) }

def Statistics.toJson (s : Statistics Binary64) : Json :=
  .object [("members_count", .int s.membersCount), ("properties_count", .ofNat s.propertiesCount),
    ("membership_density", .float s.density), ("membership_mean", .float s.mean),
    ("membership_range", .list [.ofNat s.smallest, .ofNat s.largest]),
    ("similarity", .float s.similarity)]

end Cluster

structure Cluster where
  id : Nat
  mode : Mode
  members : IdSet
  properties : IdSet
  chunkKeys : List (List String)
  statistics : Cluster.Statistics Binary64

namespace Cluster

/-- Clusters are named by their number, filled up to three digits. -/
def name (c : Cluster) : String :=
  let digits := Nat.toDigits 10 c.id
  "CLUSTER_" ++ String.ofList (List.replicate (3 - digits.length) '0' ++ digits)

def toJson (c : Cluster) : Json :=
  .object [("cluster_id", .ofNat c.id), ("name", .str c.name), ("process_mode", .str c.mode.name),
    ("members", .ofStrings c.members.toList), ("properties", .ofStrings c.properties.toList),
    ("chunk_count", .ofNat c.chunkKeys.length), ("statistics", c.statistics.toJson)]

end Cluster
end RoleMining
