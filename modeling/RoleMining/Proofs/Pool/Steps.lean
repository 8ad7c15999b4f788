import Mathlib.Data.Fintype.Card
import Mathlib.Logic.Relation
import RoleMining.Proofs.Pool.Programs

/-!
# A pool of worker threads

Clusters are analysed by a pool of threads, one cluster a task. A thread without a task takes up the
first one that waits; a main thread takes the results as they come, reports each of them, and after
a stop calls off what still waits and lets what is under way come to its end. All threads share one
run, and any of them may take the next step. A step is one access to the run at most.
-/
namespace RoleMining.Analysis

/-- What has become of the analysis of one cluster. -/
inductive Task where
  /-- No thread has taken it up. -/
  | waiting
  /-- A thread has taken it up, and has yet to look up whether the run is cancelled. -/
  | started
  | working (work : Work ClusterAnalysis)
  /-- The analysis is made and has yet to be collected. -/
  | analysed (analysis : ClusterAnalysis)
  /-- The thread is done. Nothing comes of a task that was taken up on a cancelled run. -/
  | finished (result : Except Failure (Option ClusterAnalysis))
  /-- It was called off before a thread took it up. -/
  | dropped

namespace Task

def isRunning : Task → Bool
  | started | working _ | analysed _ => true
  | _ => false

/-- No thread will have to do with the task any more. -/
def isSettled : Task → Bool
  | finished _ | dropped => true
  | _ => false

/-- The analysis that has come of the task. -/
def analysis? : Task → Option ClusterAnalysis
  | finished (.ok result) => result
  | _ => none

/-- What the thread that has a task does next, on the run that it shares. -/
inductive Step (work : Work ClusterAnalysis) : AnalysisRun → Task → AnalysisRun → Task → Prop
  | skip {run} (hrun : run.cancelled = true) : Step work run started run (finished (.ok none))
  | begin {run} (hrun : run.cancelled = false) : Step work run started run (working work)
  | access {run run' w w'} (hstep : w.step run = some (run', w')) :
      Step work run (working w) run' (working w')
  | answer {run a} : Step work run (working (.done a)) run (analysed a)
  | fail {run e} : Step work run (working (.fail e)) run (finished (.error e))
  | collect {run a} : Step work run (analysed a) (run.collect a) (finished (.ok (some a)))

end Task

/-- What the main thread does next, for a number of tasks. -/
inductive Main (n : ℕ) where
  /-- Take a result, or return when all of them are taken. -/
  | taking
  | reporting
  /-- The report was refused, so cancel the run. -/
  | refused
  | polling
  /-- Call off those of the tasks that still wait. -/
  | dropping (left : List (Fin n))
  /-- Wait until all tasks are settled, then note the stop if something is missing. -/
  | closing
  /-- Wait until all tasks are settled, then fail. -/
  | raising (failure : Failure)
  | returned (analyses : List ClusterAnalysis)
  | failed (failure : Failure)

/-- The threads at some time, with all that they share. -/
structure Pool (clusters : List Cluster) where
  run : AnalysisRun
  tasks : Fin clusters.length → Task
  /-- The tasks whose results the main thread has taken. -/
  taken : Finset (Fin clusters.length)
  /-- The analyses that it has taken, by the numbers of their clusters. -/
  finished : Ledger ℕ ClusterAnalysis
  main : Main clusters.length

namespace Pool

variable {clusters : List Cluster}

def initial (clusters : List Cluster) (run : AnalysisRun) : Pool clusters where
  run
  tasks := fun _ => .waiting
  taken := ∅
  finished := .empty
  main := .taking

/-- The threads that are at work. -/
def busy (s : Pool clusters) : ℕ := (Finset.univ.filter fun i => (s.tasks i).isRunning).card

def setTask (s : Pool clusters) (i : Fin clusters.length) (task : Task) : Pool clusters :=
  { s with tasks := Function.update s.tasks i task }

/-- Take what has come of a task. -/
def take (s : Pool clusters) (i : Fin clusters.length) (result : Option ClusterAnalysis) :
    Pool clusters :=
  { s with
    taken := insert i s.taken
    finished :=
      match result with
      | some a => s.finished.record (clusters.get i).id a
      | none => s.finished
    main := .reporting }

/-- The report on the results taken so far. -/
def progress (s : Pool clusters) : Report := report clusters.length s.taken.card

/-- The analyses taken, in the order of the clusters. -/
def listed (s : Pool clusters) : List ClusterAnalysis :=
  clusters.filterMap fun c => s.finished.find? c.id

/-- Note that analyses are missing. -/
def close (s : Pool clusters) : Pool clusters :=
  { s with
    run := if s.finished.size < clusters.length then s.run.markAborted else s.run
    main := .returned s.listed }

/-- What any of the threads may do next, when there are so many for the tasks. -/
inductive Step (setting : Setting) (workers : Number) : Pool clusters → Pool clusters → Prop
  | start {s i} (hwaiting : s.tasks i = .waiting) (hfirst : ∀ j < i, s.tasks j ≠ .waiting)
      (hidle : (Number.int s.busy).below workers = true) :
      Step setting workers s (s.setTask i .started)
  | act {s i run task}
      (hstep : Task.Step (clusterWork setting (clusters.get i)) s.run (s.tasks i) run task) :
      Step setting workers s { s.setTask i task with run }
  | take {s i result} (hmain : s.main = .taking) (hnew : i ∉ s.taken)
      (htask : s.tasks i = .finished (.ok result)) : Step setting workers s (s.take i result)
  | raise {s i e} (hmain : s.main = .taking) (hnew : i ∉ s.taken)
      (htask : s.tasks i = .finished (.error e)) :
      Step setting workers s { s with main := .raising e }
  | report {s} (hmain : s.main = .reporting) :
      Step setting workers s
        { s with
          run := s.run.tell s.progress
          main := if s.run.allows s.progress then .polling else .refused }
  | cancel {s} (hmain : s.main = .refused) :
      Step setting workers s { s with run := s.run.cancel, main := .polling }
  | goOn {s} (hmain : s.main = .polling) (hrun : s.run.cancelled = false) :
      Step setting workers s { s with main := .taking }
  | stop {s} (hmain : s.main = .polling) (hrun : s.run.cancelled = true) :
      Step setting workers s { s with main := .dropping (List.finRange clusters.length) }
  | drop {s i left} (hmain : s.main = .dropping (i :: left)) (htask : s.tasks i = .waiting) :
      Step setting workers s { s.setTask i .dropped with main := .dropping left }
  | pass {s i left} (hmain : s.main = .dropping (i :: left)) (htask : s.tasks i ≠ .waiting) :
      Step setting workers s { s with main := .dropping left }
  | settle {s} (hmain : s.main = .dropping []) :
      Step setting workers s { s with main := .closing }
  | close {s} (hmain : s.main = .closing) (hsettled : ∀ i, (s.tasks i).isSettled = true) :
      Step setting workers s s.close
  | finish {s} (hmain : s.main = .taking) (hall : s.taken = Finset.univ) :
      Step setting workers s { s with main := .returned s.listed }
  | fail {s e} (hmain : s.main = .raising e) (hsettled : ∀ i, (s.tasks i).isSettled = true) :
      Step setting workers s { s with main := .failed e }

/-- What the main thread has ended with. -/
def result? (s : Pool clusters) : Option (Except Failure (AnalysisRun × List ClusterAnalysis)) :=
  match s.main with
  | .returned analyses => some (.ok (s.run, analyses))
  | .failed e => some (.error e)
  | _ => none

/-- What any number of steps from the start may lead to. -/
def Reached (setting : Setting) (workers : Number) (run : AnalysisRun) (s : Pool clusters) :
    Prop :=
  Relation.ReflTransGen (Step setting workers) (initial clusters run) s

end Pool

end RoleMining.Analysis
