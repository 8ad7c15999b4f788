import RoleMining.Run.Basic

/-!
# The journal of a run

Every step that is taken on a run by hand leaves notes: one for a checkpoint, one for a report that
is logged, and one when the run is first marked as aborted.
-/
namespace RoleMining.Run

inductive Note where
  | checkpoint (phase : String) (report : Report)
  | progress (report : Report)
  | aborted (phase : String)

namespace Note

def message : Note → String
  | .checkpoint phase report =>
    "checkpoint phase=" ++ phase ++ " done=" ++ Text.ofInt report.done ++ " total=" ++
      Text.ofInt report.total ++ " final=" ++ (if report.final then "True" else "False")
  | .progress report =>
    "progress " ++ Text.ofInt report.done ++ "/" ++ Text.ofInt report.total ++
      (if report.final then " (final)" else "")
  | .aborted phase =>
    "Role analysis aborted" ++ (if phase.isEmpty then "" else " during " ++ phase)

end Note

inductive Step (α : Type) where
  | checkpoint (phase : String) (report : Report)
  | cancel
  | poll
  | markAborted (phase : String)
  | collect (item : α)
  | results

/-- What a step answers: nothing, a request to stop, or the items collected so far. -/
inductive StepAnswer (α : Type) where
  | nothing
  | stop
  | items (items : List α)

structure Performed (α : Type) where
  run : Run α
  answer : StepAnswer α := .nothing
  notes : List Note := []

variable {α : Type}

def stopAnswer (r : Run α) : StepAnswer α := if r.cancelled then .stop else .nothing

/-- Take one step; `logs` says whether the reporter logs the reports it gets. -/
def perform (logs : Bool) (r : Run α) : Step α → Performed α
  | .checkpoint phase report =>
    let next := r.checkpoint report
    { run := next, answer := next.stopAnswer,
      notes := .checkpoint phase report :: if logs then [.progress report] else [] }
  | .cancel => { run := r.cancel }
  | .poll => { run := r, answer := r.stopAnswer }
  | .markAborted phase =>
    { run := r.markAborted, notes := if r.aborted then [] else [.aborted phase] }
  | .collect item => { run := r.collect item }
  | .results => { run := r, answer := .items r.results }

end RoleMining.Run
