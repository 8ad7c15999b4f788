import Mathlib.Algebra.Order.BigOperators.Group.Finset
import RoleMining.Proofs.Pool.Safety
import RoleMining.Proofs.Thresholds

/-!
# A pool comes to an end

Every step brings the end nearer: the accesses that are left of the tasks, and the turns that the
main thread has left, go down. And as long as the main thread has not ended, some thread has a next
step: if no task is under way, a thread is free for the first one that waits.
-/
namespace RoleMining.Analysis

namespace Task

variable {work : Work ClusterAnalysis} {run run' : AnalysisRun} {t t' : Task}

/-- The most steps that are left of a task. -/
def left (work : Work ClusterAnalysis) : Task → ℕ
  | waiting => work.depth + 4
  | started => work.depth + 3
  | working w => w.depth + 2
  | analysed _ => 1
  | finished _ | dropped => 0

theorem Step.left_lt (h : Step work run t run' t') : t'.left work < t.left work := by
  cases h with
  | skip => exact Nat.succ_pos _
  | begin => exact Nat.lt_succ_self _
  | access hstep =>
    exact Nat.add_lt_add_right (Work.depth_of_step hstep) 2
  | answer => exact Nat.lt_succ_self _
  | fail => exact Nat.succ_pos _
  | collect => exact Nat.succ_pos _

theorem exists_step (work : Work ClusterAnalysis) (run : AnalysisRun) (h : t.isRunning = true) :
    ∃ run' t', Step work run t run' t' := by
  cases t with
  | waiting => cases h
  | started =>
    cases hrun : run.cancelled with
    | true => exact ⟨_, _, .skip hrun⟩
    | false => exact ⟨_, _, .begin hrun⟩
  | working w =>
    rcases w.exists_step run with ⟨a, rfl⟩ | ⟨e, rfl⟩ | ⟨run', w', hstep⟩
    · exact ⟨_, _, .answer⟩
    · exact ⟨_, _, .fail⟩
    · exact ⟨_, _, .access hstep⟩
  | analysed a => exact ⟨_, _, .collect⟩
  | finished => cases h
  | dropped => cases h

end Task

/-- The most turns that the main thread has left, after taking so many results. -/
def Main.left {n : ℕ} (taken : ℕ) : Main n → ℕ
  | .taking => 4 * (n - taken) + n + 4
  | .reporting => 4 * (n - taken) + n + 7
  | .refused => 4 * (n - taken) + n + 6
  | .polling => 4 * (n - taken) + n + 5
  | .dropping left => left.length + 3
  | .closing | .raising _ => 2
  | .returned _ | .failed _ => 0

namespace Pool

variable {clusters : List Cluster} {setting : Setting} {workers : Number}
variable {P : Fin clusters.length → Except Failure ClusterAnalysis → Prop}
variable {s s' : Pool clusters} {i : Fin clusters.length} {task : Task} {run : AnalysisRun}

/-- The steps that are left of the tasks. -/
def tasksLeft (setting : Setting) (s : Pool clusters) : ℕ :=
  ∑ i, (s.tasks i).left (clusterWork setting (clusters.get i))

/-- The most steps that are left in all. -/
def left (setting : Setting) (s : Pool clusters) : ℕ :=
  s.tasksLeft setting + s.main.left s.taken.card

theorem tasksLeft_setTask_lt (h : task.left (clusterWork setting (clusters.get i)) <
    (s.tasks i).left (clusterWork setting (clusters.get i))) :
    (s.setTask i task).tasksLeft setting < s.tasksLeft setting := by
  refine Finset.sum_lt_sum (fun j _ => ?_) ⟨i, Finset.mem_univ i, ?_⟩
  · by_cases hj : j = i
    · subst hj
      rw [tasks_setTask_self]
      exact h.le
    · rw [tasks_setTask_of_ne hj]
  · rw [tasks_setTask_self]
    exact h

/-- A turn of the main thread that leaves the tasks as they are. -/
theorem left_lt_of_main (htasks : s'.tasks = s.tasks)
    (hmain : s'.main.left s'.taken.card < s.main.left s.taken.card) :
    s'.left setting < s.left setting := by
  unfold left tasksLeft
  rw [htasks]
  exact Nat.add_lt_add_left hmain _

/-- Every step brings the end nearer. -/
theorem left_lt_of_step (h : Step setting workers s s') : s'.left setting < s.left setting := by
  cases h with
  | @start i hwaiting =>
    refine Nat.add_lt_add_right (tasksLeft_setTask_lt ?_) _
    rw [hwaiting]
    exact Nat.lt_succ_self _
  | act hstep => exact Nat.add_lt_add_right (tasksLeft_setTask_lt hstep.left_lt) _
  | @take i result hmain hnew htask =>
    have hcard : (insert i s.taken).card = s.taken.card + 1 := Finset.card_insert_of_notMem hnew
    have hroom := Finset.card_le_univ (insert i s.taken)
    rw [Fintype.card_fin, hcard] at hroom
    refine left_lt_of_main rfl ?_
    rw [hmain]
    simp only [Pool.take, Main.left, hcard]
    omega
  | raise hmain =>
    refine left_lt_of_main rfl ?_
    rw [hmain]
    simp only [Main.left]
    omega
  | report hmain =>
    refine left_lt_of_main rfl ?_
    rw [hmain]
    dsimp only
    split <;> simp only [Main.left] <;> omega
  | cancel hmain => exact left_lt_of_main rfl (by simp [hmain, Main.left])
  | goOn hmain => exact left_lt_of_main rfl (by simp [hmain, Main.left])
  | stop hmain =>
    refine left_lt_of_main rfl ?_
    rw [hmain]
    simp only [Main.left, List.length_finRange]
    omega
  | @drop i left hmain htask =>
    have htasks : (s.setTask i .dropped).tasksLeft setting < s.tasksLeft setting := by
      apply tasksLeft_setTask_lt
      rw [htask]
      exact Nat.succ_pos _
    refine Nat.add_lt_add htasks ?_
    simp [hmain, Main.left]
  | pass hmain => exact left_lt_of_main rfl (by simp [hmain, Main.left])
  | settle hmain => exact left_lt_of_main rfl (by simp [hmain, Main.left])
  | close hmain => exact left_lt_of_main rfl (by simp [hmain, Pool.close, Main.left])
  | finish hmain => exact left_lt_of_main rfl (by simp [hmain, Main.left])
  | fail hmain => exact left_lt_of_main rfl (by simp [hmain, Main.left])

/-- No order of steps goes on for ever. -/
theorem wellFounded_step :
    WellFounded fun s' s : Pool clusters => Step setting workers s s' :=
  Subrelation.wf left_lt_of_step (measure (left setting)).wf

/-! ### Someone goes next -/

theorem busy_eq_zero (h : ∀ i, (s.tasks i).isRunning = false) : s.busy = 0 := by
  simp [busy, h]

/-- As long as a task is not settled, some thread goes on with one or takes one up. -/
theorem exists_step_of_unsettled (hworkers : (0 : Number).below workers = true)
    (h : ∃ i, (s.tasks i).isSettled = false) : ∃ s', Step setting workers s s' := by
  by_cases hrunning : ∃ i, (s.tasks i).isRunning = true
  · obtain ⟨i, hi⟩ := hrunning
    obtain ⟨run, task, hstep⟩ :=
      Task.exists_step (clusterWork setting (clusters.get i)) s.run hi
    exact ⟨_, .act hstep⟩
  · have hidle : ∀ i, (s.tasks i).isRunning = false := by simpa using hrunning
    have hwaiting : ∃ i, s.tasks i = .waiting := by
      obtain ⟨i, hi⟩ := h
      refine ⟨i, ?_⟩
      have hnot := hidle i
      revert hi hnot
      cases s.tasks i <;> simp [Task.isSettled, Task.isRunning]
    -- the first of the waiting tasks
    obtain ⟨i, hi, hfirst⟩ := wellFounded_lt.has_min {i | s.tasks i = .waiting} hwaiting
    refine ⟨_, .start hi (fun j hj hother => hfirst j hother hj) ?_⟩
    rw [busy_eq_zero hidle]
    exact hworkers

/-- Until the main thread has ended, there is a next step. -/
theorem Sound.exists_step (hworkers : (0 : Number).below workers = true) (h : s.Sound P) :
    (∃ result, s.result? = some result) ∨ ∃ s', Step setting workers s s' := by
  have hsettled : (∀ i, (s.tasks i).isSettled = true) ∨ ∃ s', Step setting workers s s' := by
    by_cases hall : ∀ i, (s.tasks i).isSettled = true
    · exact .inl hall
    · exact .inr (exists_step_of_unsettled hworkers (by simpa using hall))
  cases hmain : s.main with
  | taking =>
    refine .inr ?_
    by_cases hall : s.taken = Finset.univ
    · exact ⟨_, .finish hmain hall⟩
    · obtain ⟨i, hi⟩ : ∃ i, i ∉ s.taken := by simpa [Finset.eq_univ_iff_forall] using hall
      cases htask : s.tasks i with
      | finished result =>
        cases result with
        | ok result => exact ⟨_, .take hmain hi htask⟩
        | error e => exact ⟨_, .raise hmain hi htask⟩
      | dropped => exact absurd htask (h.ne_dropped (.inl hmain) i)
      | waiting => exact exists_step_of_unsettled hworkers ⟨i, by rw [htask]; rfl⟩
      | started => exact exists_step_of_unsettled hworkers ⟨i, by rw [htask]; rfl⟩
      | working => exact exists_step_of_unsettled hworkers ⟨i, by rw [htask]; rfl⟩
      | analysed => exact exists_step_of_unsettled hworkers ⟨i, by rw [htask]; rfl⟩
  | reporting => exact .inr ⟨_, .report hmain⟩
  | refused => exact .inr ⟨_, .cancel hmain⟩
  | polling =>
    cases hrun : s.run.cancelled with
    | true => exact .inr ⟨_, .stop hmain hrun⟩
    | false => exact .inr ⟨_, .goOn hmain hrun⟩
  | dropping left =>
    cases left with
    | nil => exact .inr ⟨_, .settle hmain⟩
    | cons i left =>
      by_cases htask : s.tasks i = .waiting
      · exact .inr ⟨_, .drop hmain htask⟩
      · exact .inr ⟨_, .pass hmain htask⟩
  | closing => exact .inr (hsettled.elim (fun hall => ⟨_, .close hmain hall⟩) id)
  | raising e => exact .inr (hsettled.elim (fun hall => ⟨_, .fail hmain hall⟩) id)
  | returned analyses => exact .inl ⟨.ok (s.run, analyses), by rw [result?, hmain]⟩
  | failed e => exact .inl ⟨.error e, by rw [result?, hmain]⟩

end Pool

end RoleMining.Analysis
