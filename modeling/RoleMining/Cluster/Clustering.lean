import RoleMining.Chunk.Aggregate
import RoleMining.Cluster.Assembly
import RoleMining.Cluster.Community
import RoleMining.Cluster.Overlaps
import RoleMining.Run.Basic

/-!
# Clustering a population

A population is chunked, the chunks are partitioned into groups, small groups are dropped, chunks
may join further groups, and the groups become clusters. Five checkpoints stand between these
steps; a run that is stopped at one keeps what was made before it.
-/
namespace RoleMining

/-- Figures about a partition into communities. -/
structure GraphStatistics where
  quality : Binary64
  resolution : Option Number
  nodes : Nat
  edges : Nat
  averageDegree : Number
  isolated : Nat

namespace GraphStatistics

/-- Figures of a graph that communities were looked for in. -/
def ofCommunities (g : Graph) (resolution : Number) (l : Labelling) : GraphStatistics where
  quality := .ofRat (2 * Community.quality g resolution l)
  resolution := some resolution
  nodes := g.nodes
  edges := g.edges.length
  averageDegree :=
    if g.nodes = 0 then 0 else .float (Arithmetic.ratio (2 * (g.edges.length : Int)) g.nodes)
  isolated := g.isolated.length

/-- Figures of a graph without links. -/
def ofNodes (nodes : Nat) : GraphStatistics where
  quality := 0
  resolution := none
  nodes
  edges := 0
  averageDegree := 0
  isolated := nodes

def fields (s : GraphStatistics) : Fields :=
  [("cpm_quality", .float s.quality)] ++
    (match s.resolution with
      | some resolution => [("resolution", .ofNumber resolution)]
      | none => []) ++
    [("graph_nodes", .ofNat s.nodes), ("graph_edges", .ofNat s.edges),
      ("avg_degree", .ofNumber s.averageDegree), ("isolated_nodes", .ofNat s.isolated)]

end GraphStatistics

/-- Groups of chunk positions with what is known about them. -/
structure Partition where
  groups : List (List Nat)
  similarities : Cluster.Similarities := .empty
  graph : Option GraphStatistics := none
  /-- The keys of chunks without a similar neighbour. -/
  outliers : List (List String) := []

namespace Partition

def statisticsJson (p : Partition) : Json :=
  .object ((p.graph.map GraphStatistics.fields).getD [] ++
    [("initial_clusters", .ofNat p.groups.length)])

/-- The similarity graph of the chunks. -/
def graphOf (policy : Policy) (chunks : List Chunk) : Except Failure Graph := do
  let records ← Chunk.expand chunks
  return .ofTable policy.minSimilarity policy.minShared (.ofRecords records)

/-- The communities of a graph over chunks; without links every chunk is one by itself. -/
def ofGraph (finder : CommunityFinder) (policy : Policy) (chunks : List Chunk) (g : Graph) :
    Except Failure Partition := do
  let nodes := chunks.length
  let outliers := chunks.zipIdx.filterMap fun (c, pos) =>
    if g.hasEdgeAt pos then none else some c.properties
  if g.edges.isEmpty then
    return { groups := (List.range nodes).map fun pos => [pos],
             graph := some (.ofNodes nodes), outliers }
  else
    Community.checkSeed policy.seed
    let l := finder { g with nodes } policy.resolution policy.seed
    return { groups := Community.groups nodes l
             similarities := .ofList (g.edges.map fun e => ((e.first, e.second), e.similarity))
             graph := some (.ofCommunities { g with nodes } policy.resolution l)
             outliers }

end Partition

/-- The result of clustering. -/
structure Clustering where
  clusters : List Cluster := []
  chunks : List Chunk := []
  /-- The partition, once one was made. -/
  partition : Option Partition := none
  unassigned : IdSet := .empty
  aborted : Bool := false

namespace Clustering

def phases : Int := 5

/-- The result from what was made: chunks get their status, and members in no cluster are listed. -/
def conclude (chunks : List Chunk) (clusters : List Cluster) (partition : Option Partition)
    (aborted : Bool) : Clustering :=
  let included := clusters.flatMap (·.chunkKeys)
  let outliers := (partition.map Partition.outliers).getD []
  let assigned := clusters.foldl (fun (ids : IdSet) c => ids.union c.members) .empty
  let everyone := chunks.foldl (fun (ids : IdSet) c => ids.addAll c.members) .empty
  { clusters
    chunks := Chunk.classify included outliers chunks
    partition
    unassigned := everyone.filter fun id => !decide (id ∈ assigned)
    aborted }

def partitionJson (c : Clustering) : Json :=
  (c.partition.map Partition.statisticsJson).getD (.object [])

/-- The chunks of the axis that a mode clusters. -/
def chunksFor (mode : Mode) (records : List Record) : List Chunk :=
  match mode with
  | .user => Chunk.ofUsers records
  | .role => Chunk.aggregate .roles .empty (invert records)

variable {α : Type}

/-- The partition that a policy asks for, unless the run is stopped at one of the two checkpoints
on the way. -/
def divide (finder : CommunityFinder) (policy : Policy) (chunks : List Chunk) (run : Run α) :
    Except Failure (Run α × Option Partition) := do
  match policy.strategy with
  | .communities =>
    let g ← Partition.graphOf policy chunks
    let run := run.checkpoint ⟨2, phases, false⟩
    if run.cancelled then return (run, none)
    let made ← Partition.ofGraph finder policy chunks g
    let run := run.checkpoint ⟨3, phases, false⟩
    return (run, if run.cancelled then none else some made)
  | .exact =>
    let run := run.checkpoint ⟨2, phases, false⟩
    if run.cancelled then return (run, none)
    let run := run.checkpoint ⟨3, phases, false⟩
    return (run, if run.cancelled then none
      else some { groups := (List.range chunks.length).map fun pos => [pos] })

/-- The steps after the partition: drop small groups, let chunks join further groups, assemble. -/
def finish (policy : Policy) (chunks : List Chunk) (made : Partition) (run : Run α) :
    Except Failure (Run α × Clustering) := do
  let groups ← Cluster.largeGroups policy chunks made.groups
  let run := run.checkpoint ⟨4, phases, false⟩
  if run.cancelled then
    return (run.markAborted, conclude chunks [] (some made) true)
  let groups ← if policy.allowOverlap && !groups.isEmpty then
      Cluster.overlapped policy chunks groups
    else pure groups
  let clusters ← Cluster.assemble policy.mode chunks made.similarities groups
  let run := run.checkpoint ⟨phases, phases, true⟩
  let run := if run.cancelled then run.markAborted else run
  return (run, conclude chunks clusters (some made) run.aborted)

/-- Cluster a population. -/
def ofPopulation (finder : CommunityFinder) (policy : Policy) (records : List Record)
    (run : Run α) : Except Failure (Run α × Clustering) := do
  let chunks := chunksFor policy.mode records
  let run := run.checkpoint ⟨1, phases, false⟩
  if run.cancelled then
    return (run.markAborted, conclude chunks [] none true)
  if chunks.isEmpty then
    let run := run.checkpoint ⟨phases, phases, true⟩
    if run.cancelled then return (run.markAborted, conclude [] [] none true)
    else return (run, conclude [] [] none false)
  let (run, made) ← divide finder policy chunks run
  match made with
  | none => return (run.markAborted, conclude chunks [] none true)
  | some made => finish policy chunks made run

end Clustering
end RoleMining
