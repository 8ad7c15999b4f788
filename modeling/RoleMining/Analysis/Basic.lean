import RoleMining.Analysis.ClusterAnalysis
import RoleMining.Cluster.Clustering
import RoleMining.Cluster.SessionStatistics
import RoleMining.Settings.Resolve

/-!
# Role analysis

One run over a population: frequencies, clusters, and the analysis of every cluster. A run that is
stopped gives what was finished, and says that it was stopped.
-/
namespace RoleMining

structure Analysis where
  aborted : Bool
  clusters : List ClusterAnalysis
  statistics : SessionStatistics Binary64
  clustering : Clustering
  properties : Nat
  band : Frequencies.BandSummary
  settings : Settings

namespace Analysis

/-- The run of an analysis, which collects the analysis of each cluster. -/
abbrev AnalysisRun := Run ClusterAnalysis

/-- What the analyses of clusters have in common. -/
structure Setting where
  detection : Detection
  records : Ledger String Record
  frequencies : Frequencies
  weights : Ledger String Int

def analyzeCluster (setting : Setting) (cluster : Cluster) (run : AnalysisRun) :
    Except Failure (AnalysisRun × ClusterAnalysis) := do
  let members := Mined.membersOf setting.records cluster.members.toList
  let (run, mined) ← Mined.ofMembers cluster.mode setting.detection (some setting.frequencies)
    setting.weights members run
  return (run, { cluster, mined })

/-- Analyse the clusters that are left, after `done` of them. A cancelled run starts no further
analysis; a stop after the last cluster loses nothing. -/
def analyzeClusters (setting : Setting) (total : Nat) (done : Nat) (run : AnalysisRun)
    (finished : List ClusterAnalysis) : List Cluster →
    Except Failure (AnalysisRun × List ClusterAnalysis)
  | [] => .ok (run, finished)
  | cluster :: rest => do
    let (run, finished) ←
      if run.cancelled then pure (run, finished)
      else do
        let (run, analysis) ← analyzeCluster setting cluster run
        pure (run.collect analysis, finished ++ [analysis])
    let run := run.checkpoint ⟨(done : Int) + 1, total, done + 1 == total⟩
    if run.cancelled then
      return (if finished.length < total then run.markAborted else run, finished)
    analyzeClusters setting total (done + 1) run finished rest

/-- How many chunks have each status, in the order in which the statuses first occur. -/
def chunkStatus (chunks : List Chunk) : Ledger String Nat :=
  chunks.foldl
    (fun (counts : Ledger String Nat) c =>
      counts.record c.status.name ((counts.find? c.status.name).getD 0 + 1)) .empty

/-- The records of the axis that is clustered. -/
def analysed (mode : Mode) (records : List Record) : List Record :=
  match mode with
  | .user => records
  | .role => invert records

/-- Analyse a population under checked settings. -/
def ofRecords (finder : CommunityFinder) (settings : Settings) (records : List Record)
    (run : AnalysisRun) : Except Failure (AnalysisRun × Analysis) := do
  let policy ← settings.session.check
  let thresholds ← settings.detection.check
  let clustered := analysed policy.mode records
  let frequencies ← Frequencies.ofRecords clustered
  let band := frequencies.summary thresholds.band
  let (run, clustering) ← Clustering.ofPopulation finder policy records run
  let setting : Setting :=
    { detection := settings.detection
      records := .ofList (clustered.map fun r => (r.oid, r))
      frequencies
      weights := weightMap records }
  let clusters := clustering.clusters
  let (run, analyses) ←
    if clusters.isEmpty || run.aborted then pure (run, [])
    else analyzeClusters setting clusters.length 0 run [] clusters
  return (run, {
    aborted := run.aborted
    clusters := analyses
    statistics := .ofClusters (clusters.map Cluster.figures)
    clustering
    properties := frequencies.size
    band
    settings })

/-- A fresh run at the poll interval of the settings; nobody asks it to stop. -/
def freshRun {α : Type} (settings : Settings) : Except Failure (Run α) :=
  Run.ofInterval settings.runtime.progressInterval fun _ => true

/-- Analyse a population under settings, which are checked first, in a run of its own. -/
def ofSettings (finder : CommunityFinder) (settings : Settings) (records : List Record) :
    Except Failure (AnalysisRun × Analysis) := do
  let settings ← settings.ensureValid
  ofRecords finder settings records (← freshRun settings)

/-- Analyse a population under the defaults with overrides, in a given run or one of its own. -/
def perform (finder : CommunityFinder) (overrides : Json) (records : Option (List Record))
    (run : Option AnalysisRun) : Except Failure (AnalysisRun × Analysis) := do
  let settings ← Settings.resolve overrides
  let some records := records | throw (.missing "records")
  let run ← match run with
    | some run => pure run
    | none => freshRun settings
  ofRecords finder settings records run

def statusName (aborted : Bool) : String := if aborted then "aborted" else "completed"

/-- The result of an analysis, with a copy of its settings. -/
def fields (room : Nat) (a : Analysis) : Except Failure Fields := do
  return [("status", .str (statusName a.aborted)),
    ("clusters", .list (a.clusters.map ClusterAnalysis.toJson)),
    ("session_statistics", a.statistics.toJson),
    ("chunk_status", .object ((chunkStatus a.clustering.chunks).entries.map fun (name, count) =>
      (name, .ofNat count))),
    ("partition_stats", a.clustering.partitionJson),
    ("unassigned", .ofStrings a.clustering.unassigned.toList),
    ("frequency", .object [("properties", .ofNat a.properties), ("kept", .int a.band.kept),
      ("too_rare", .ofNat a.band.tooRare), ("too_common", .ofNat a.band.tooCommon)]),
    ("config", ← a.settings.copied room)]

/-- The result that settings and a population come to. -/
def answer (room : Nat) (finder : CommunityFinder) (settings : Settings) (records : List Record) :
    Except Failure Json := do
  let (_, analysis) ← ofSettings finder settings records
  return .object (← analysis.fields room)

end Analysis
end RoleMining
