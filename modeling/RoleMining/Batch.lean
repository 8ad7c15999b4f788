import RoleMining.Analysis.Basic
import RoleMining.Population.Basic

/-!
# Batch jobs

A batch job reads a population from files, analyses or clusters it, and leaves one result file. The
command names the job, and the environment names the files. Settings are checked before any
population file is read.
-/
namespace RoleMining

/-- What a batch job makes of its population. -/
inductive Job where
  | mine
  | cluster
deriving DecidableEq, Repr

namespace Job

def ofName? (name : String) : Option Job :=
  if name == "mine" then some .mine
  else if name == "cluster" then some .cluster
  else none

def resultFile : Job → String
  | .mine => "analysis_results.json"
  | .cluster => "clusters.json"

end Job

structure Batch where
  job : Job
  assignments : String
  identities : Option String
  settings : Option String
  directory : String
  environment : Environment

namespace Batch

def defaultDirectory : String := "output"

def requiredVariable (env : Environment) (name : String) : Except Failure String :=
  match env.nonEmpty? name with
  | some value => .ok value
  | none => .error (.missingVariable name)

/-- The batch that a command asks for; only its first argument counts. -/
def ofCommand (arguments : List String) (env : Environment) : Except Failure Batch := do
  let some job := Job.ofName? (Text.lowerLatin (Text.strip (arguments.headD ""))) | throw .usage
  return {
    job
    assignments := ← requiredVariable env "INPUT_ASSIGNMENTS"
    identities := env.nonEmpty? "INPUT_IDENTITIES"
    settings := env.nonEmpty? "CONFIG_PATH"
    directory := (env.find? "OUTPUT_DIR").getD defaultDirectory
    environment := env }

/-- The files that the batch reads. -/
def inputs (b : Batch) : List String :=
  b.settings.toList ++ b.assignments :: b.identities.toList

/-- Where the result goes. -/
def resultPath (b : Batch) : String :=
  if b.directory.endsWith "/" then b.directory ++ b.job.resultFile
  else b.directory ++ "/" ++ b.job.resultFile

/-- The values in the settings file, if there is to be one. -/
def fileValues (b : Batch) (read : String → Option ByteArray) : Except Failure Json :=
  match b.settings with
  | none => .ok .null
  | some path =>
    match read path with
    | none => .error .fileNotFound
    | some bytes =>
      match String.fromUTF8? bytes with
      | none => .error .notText
      | some text =>
        match Json.parse? text with
        | some value => .ok value
        | none => .error .notJson

/-- The result of clustering alone. -/
def clusterFields (settings : Settings) (aborted : Bool) (c : Clustering) :
    Except Failure Fields := do
  return [("status", .str (Analysis.statusName aborted)),
    ("clusters", .list (c.clusters.map Cluster.toJson)),
    ("session_statistics", (SessionStatistics.ofClusters (c.clusters.map Cluster.figures)).toJson),
    ("partition_stats", c.partitionJson),
    ("unassigned", .ofStrings c.unassigned.toList),
    ("config", ← settings.copied stackRoom)]

def resultOf (job : Job) (finder : CommunityFinder) (settings : Settings) (records : List Record) :
    Except Failure Fields := do
  match job with
  | .mine =>
    let (_, analysis) ← Analysis.ofRecords finder settings records (← Analysis.freshRun settings)
    analysis.fields stackRoom
  | .cluster =>
    let run : Run Unit ← Analysis.freshRun settings
    let (run, c) ← Clustering.ofPopulation finder (← settings.session.check) records run
    clusterFields settings run.aborted c

/-- The fields of the result file; `read` gives the content of a file that exists. -/
def perform (b : Batch) (finder : CommunityFinder) (read : String → Option ByteArray) :
    Except Failure Fields := do
  let settings ← Settings.layered (← b.fileValues read) b.environment
  let records ← Population.load ⟨b.assignments, read b.assignments⟩
    (b.identities.map fun path => ⟨path, read path⟩)
  let fields ← resultOf b.job finder settings records
  if b.directory.isEmpty then throw .fileNotFound
  return fields

end Batch
end RoleMining
