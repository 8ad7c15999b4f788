import RoleMining.Batch
import RoleMining.Cluster.Community

/-!
# The command line

`mine` analyses a population and `cluster` only clusters it. The program reads the named files,
hands them to the batch, and writes its result, to which an analysis adds how long it took.
-/
namespace RoleMining.Main

/-- The variables that the program looks at. -/
def variableNames : List String :=
  ["INPUT_ASSIGNMENTS", "INPUT_IDENTITIES", "CONFIG_PATH", "OUTPUT_DIR", "LOG_LEVEL",
   "NUM_WORKERS"]

def readEnvironment : IO Environment := do
  let given ← variableNames.filterMapM fun name => do
    return (← IO.getEnv name).map fun value => (name, value)
  return .ofList given

/-- The contents of those files that exist. -/
def readFiles (paths : List String) : IO (List (String × ByteArray)) :=
  paths.filterMapM fun (path : String) => do
    try
      return some (path, ← IO.FS.readBinFile path)
    catch _ => return none

def timed (job : Job) (fields : Fields) (milliseconds : Nat) : Fields :=
  match job with
  | .mine => fields ++ [("elapsed_ms", .ofNat milliseconds)]
  | .cluster => fields

def write (b : Batch) (fields : Fields) : IO Unit := do
  IO.FS.createDirAll b.directory
  IO.FS.writeFile b.resultPath ((Json.object fields).render .indented)

def fail (failure : Failure) : IO UInt32 := do
  IO.eprintln ("worker failed: " ++ failure.message)
  return 1

def run (b : Batch) : IO UInt32 := do
  let started ← IO.monoMsNow
  let files ← readFiles b.inputs
  match b.perform Community.best fun path => files.lookup path with
  | .error failure => fail failure
  | .ok fields =>
    write b (timed b.job fields ((← IO.monoMsNow) - started))
    return 0

end RoleMining.Main

def main (arguments : List String) : IO UInt32 := do
  match RoleMining.Batch.ofCommand arguments (← RoleMining.Main.readEnvironment) with
  | .error failure => RoleMining.Main.fail failure
  | .ok b => RoleMining.Main.run b
