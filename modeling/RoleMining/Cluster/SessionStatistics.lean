import RoleMining.Cluster.Basic

/-!
# Session statistics

The figures of all clusters of a session together. When a cluster is discarded they are brought up
to date without the other clusters being looked at.
-/
namespace RoleMining

structure SessionStatistics (α : Type) where
  processed : Int
  clusterCount : Int
  meanDensity : α

/-- The two figures of a cluster that a session's statistics are made of. -/
structure ClusterFigures (α : Type) where
  members : Int
  density : α

namespace SessionStatistics

variable {α : Type} [Arithmetic α]

def empty : SessionStatistics α := ⟨0, 0, Arithmetic.ofInt 0⟩

def ofClusters (clusters : List (ClusterFigures α)) : SessionStatistics α :=
  if clusters.isEmpty then empty
  else
    { processed := total (clusters.map (·.members))
      clusterCount := clusters.length
      meanDensity := Arithmetic.mean (clusters.map (·.density)) }

/-- The statistics once a cluster is discarded; all zero when none is left. -/
def without (s : SessionStatistics α) (cluster : ClusterFigures α) : SessionStatistics α :=
  let left := s.clusterCount - 1
  if left ≤ 0 then empty
  else
    { processed := s.processed - cluster.members
      clusterCount := left
      meanDensity :=
        (s.meanDensity * Arithmetic.ofInt s.clusterCount - cluster.density) /
          Arithmetic.ofInt left }

def toJson (s : SessionStatistics Binary64) : Json :=
  .object [("processed_object_count", .int s.processed), ("cluster_count", .int s.clusterCount),
    ("mean_density", .float s.meanDensity)]

end SessionStatistics

def Cluster.figures (c : Cluster) : ClusterFigures Binary64 :=
  ⟨c.statistics.membersCount, c.statistics.density⟩

end RoleMining
