import RoleMining.Failure

/-!
# Runs

A run is the state that the stages of one analysis share: who is told about progress, whether a
stop was asked for, whether some stage ended early, and the results collected so far. A stop is
asked for by cancelling the run, or by a reporter that answers a report with "no"; a stage notices
it at its next checkpoint.
-/
namespace RoleMining

/-- A progress report: units done, units in all, and whether it is the last of its stage. -/
structure Report where
  done : Int
  total : Int
  final : Bool
deriving DecidableEq, Repr

/-- Whether the work may go on after these reports, the latest last. -/
abbrev Reporter := List Report → Bool

structure Run (α : Type) where
  pollEvery : Nat := 10000
  pollEvery_pos : 0 < pollEvery := by decide
  reporter : Reporter := fun _ => true
  cancelled : Bool := false
  aborted : Bool := false
  calls : List Report := []
  results : List α := []

namespace Run

variable {α : Type}

/-- A run that nobody watches. -/
def unwatched : Run α := {}

instance : Inhabited (Run α) := ⟨unwatched⟩

def cancel (r : Run α) : Run α := { r with cancelled := true }

/-- Note that a stage ended before its work was done. -/
def markAborted (r : Run α) : Run α := { r with aborted := true }

/-- Report progress. Afterwards the stage has to stop exactly when the run is cancelled. -/
def checkpoint (r : Run α) (report : Report) : Run α :=
  let calls := r.calls ++ [report]
  { r with calls, cancelled := r.cancelled || !r.reporter calls }

def collect (r : Run α) (item : α) : Run α := { r with results := r.results ++ [item] }

/-- Whether a report is due after so many units. -/
def isDue (r : Run α) (done : Nat) : Bool := done % r.pollEvery == 0

end Run

/-- The integer that a value spells: fractions are cut off, and truth values count as one and
zero. -/
def Json.toInteger : Json → Except Failure Int
  | .int n => .ok n
  | .bool b => .ok (if b then 1 else 0)
  | .float .nan => .error .notInteger
  | .float (.infinite _) => .error .numberTooLarge
  | .float x => .ok x.truncate
  | .str s =>
    match Text.integer? s with
    | some n => .ok n
    | none => .error .notInteger
  | _ => .error .wrongType

/-- A fresh run that polls after so many units, at least one. -/
def Run.ofInterval {α : Type} (interval : Json) (reporter : Reporter) :
    Except Failure (Run α) := do
  let every := (max 1 (← interval.toInteger)).toNat
  if pos : 0 < every then return { pollEvery := every, pollEvery_pos := pos, reporter }
  else return { reporter }

end RoleMining
