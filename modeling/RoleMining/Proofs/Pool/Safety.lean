import RoleMining.Proofs.Pool.Steps

/-!
# What a pool keeps to

Whatever the reporter answers and whichever thread goes next, the analyses that the main thread has
taken are just those of the tasks it has taken, each of them is collected, and a task comes to
nothing only when the run is cancelled. So the list returned has an analysis for every cluster
unless the run is marked as aborted.
-/
namespace RoleMining.Analysis

/-- What the steps of the other threads may do to the run. -/
structure Grows (run run' : AnalysisRun) : Prop where
  results : run.results ⊆ run'.results
  cancelled : run.cancelled = true → run'.cancelled = true
  aborted : run.aborted = true → run'.aborted = true

theorem Grows.refl (run : AnalysisRun) : Grows run run := ⟨List.Subset.refl _, id, id⟩

theorem grows_tell (run : AnalysisRun) (report : Report) : Grows run (run.tell report) :=
  ⟨List.Subset.refl _, id, id⟩

theorem grows_cancel (run : AnalysisRun) : Grows run run.cancel :=
  ⟨List.Subset.refl _, fun _ => rfl, id⟩

theorem grows_markAborted (run : AnalysisRun) : Grows run run.markAborted :=
  ⟨List.Subset.refl _, id, fun _ => rfl⟩

theorem grows_of_keeps {run run' : AnalysisRun} (h : Work.Keeps run run') : Grows run run' :=
  ⟨h.results ▸ List.Subset.refl _, h.cancelled, h.aborted⟩

namespace Task

variable {P : Except Failure ClusterAnalysis → Prop} {work : Work ClusterAnalysis}
variable {run run' : AnalysisRun} {t t' : Task}

/-- The task has or will have an outcome with a property, and an analysis that it has made is
collected. -/
def Sound (P : Except Failure ClusterAnalysis → Prop) (run : AnalysisRun) : Task → Prop
  | working w => w.All P
  | analysed a => P (.ok a)
  | finished (.ok (some a)) => P (.ok a) ∧ a ∈ run.results
  | finished (.ok none) => run.cancelled = true
  | finished (.error e) => P (.error e)
  | _ => True

theorem Sound.grow (h : t.Sound P run) (hgrows : Grows run run') : t.Sound P run' := by
  match t with
  | waiting => trivial
  | started => trivial
  | working _ => exact h
  | analysed _ => exact h
  | finished (.ok (some _)) => exact ⟨h.1, hgrows.results h.2⟩
  | finished (.ok none) => exact hgrows.cancelled h
  | finished (.error _) => exact h
  | dropped => trivial

theorem Step.grows (h : Step work run t run' t') : Grows run run' := by
  cases h with
  | skip => exact .refl run
  | begin => exact .refl run
  | access hstep => exact grows_of_keeps (Work.keeps_of_step hstep)
  | answer => exact .refl run
  | fail => exact .refl run
  | collect => exact ⟨List.subset_append_left _ _, id, id⟩

theorem Step.sound (h : Step work run t run' t') (hwork : work.All P) (ht : t.Sound P run) :
    t'.Sound P run' := by
  cases h with
  | skip hrun => exact hrun
  | begin => exact hwork
  | access hstep => exact Work.All.of_step ht hstep
  | answer => exact ht
  | fail => exact ht
  | collect => exact ⟨ht, List.mem_append_right _ List.mem_cons_self⟩

/-- Only a running task has a next step. -/
theorem Step.isRunning (h : Step work run t run' t') : t.isRunning = true := by
  cases h <;> rfl

theorem Step.ne_dropped (h : Step work run t run' t') : t' ≠ dropped := by
  cases h <;> exact nofun

end Task

namespace Pool

variable {clusters : List Cluster} {setting : Setting} {workers : Number}
variable {P : Fin clusters.length → Except Failure ClusterAnalysis → Prop}
variable {s s' : Pool clusters} {i : Fin clusters.length} {task : Task} {run : AnalysisRun}

@[simp] theorem tasks_setTask_self (s : Pool clusters) (i : Fin clusters.length) (task : Task) :
    (s.setTask i task).tasks i = task :=
  Function.update_self ..

theorem tasks_setTask_of_ne {j : Fin clusters.length} (h : j ≠ i) :
    (s.setTask i task).tasks j = s.tasks j :=
  Function.update_of_ne h ..

/-- What holds while the main thread is where it is. -/
def MainSound (s : Pool clusters) : Prop :=
  match s.main with
  | .taking =>
    (∀ i ∈ s.taken, ∃ a, s.tasks i = .finished (.ok (some a))) ∧ ∀ i, s.tasks i ≠ .dropped
  | .reporting | .refused | .polling => ∀ i, s.tasks i ≠ .dropped
  | .raising e | .failed e => ∃ i, s.tasks i = .finished (.error e)
  | .returned analyses => analyses = s.listed ∧
    ((∃ c ∈ clusters, s.finished.find? c.id = none) → s.run.aborted = true)
  | .dropping _ | .closing => True

structure Sound (P : Fin clusters.length → Except Failure ClusterAnalysis → Prop)
    (s : Pool clusters) : Prop where
  tasks : ∀ i, (s.tasks i).Sound (P i) s.run
  taken : ∀ i ∈ s.taken, ∃ result, s.tasks i = .finished (.ok result)
  find?_iff : ∀ id a, s.finished.find? id = some a ↔
    ∃ i ∈ s.taken, (clusters.get i).id = id ∧ s.tasks i = .finished (.ok (some a))
  main : s.MainSound

theorem sound_initial (run : AnalysisRun) : (initial clusters run).Sound P where
  tasks := fun _ => trivial
  taken := nofun
  find?_iff := by simp [initial]
  main := ⟨nofun, nofun⟩

theorem setTask_ne_dropped (h : ∀ j, s.tasks j ≠ .dropped) (hne : task ≠ .dropped) :
    ∀ j, (s.setTask i task).tasks j ≠ .dropped := by
  intro j
  by_cases hj : j = i
  · rw [hj, tasks_setTask_self]
    exact hne
  · rw [tasks_setTask_of_ne hj]
    exact h j

/-- A settled task is not one that some thread goes on with. -/
theorem tasks_setTask_of_isSettled {j : Fin clusters.length}
    (hunsettled : (s.tasks i).isSettled = false) (hj : (s.tasks j).isSettled = true) :
    (s.setTask i task).tasks j = s.tasks j := by
  refine tasks_setTask_of_ne fun he => ?_
  rw [he, hunsettled] at hj
  cases hj

theorem Sound.isSettled_of_mem_taken (h : s.Sound P) (hi : i ∈ s.taken) :
    (s.tasks i).isSettled = true := by
  obtain ⟨result, hresult⟩ := h.taken i hi
  rw [hresult]
  rfl

/-- A thread goes on with its task, or the main thread calls one off. -/
theorem Sound.update (h : s.Sound P) (hunsettled : (s.tasks i).isSettled = false)
    (hgrows : Grows s.run run) (htask : task.Sound (P i) run) {main : Main clusters.length}
    (hmain : ({ s.setTask i task with run, main } : Pool clusters).MainSound) :
    ({ s.setTask i task with run, main } : Pool clusters).Sound P where
  tasks := by
    intro j
    by_cases hj : j = i
    · subst hj
      rw [tasks_setTask_self]
      exact htask
    · rw [tasks_setTask_of_ne hj]
      exact (h.tasks j).grow hgrows
  taken := by
    intro j hj
    rw [tasks_setTask_of_isSettled hunsettled (h.isSettled_of_mem_taken hj)]
    exact h.taken j hj
  find?_iff := by
    intro id a
    refine (h.find?_iff id a).trans (exists_congr fun j => and_congr_right fun hj => ?_)
    rw [tasks_setTask_of_isSettled hunsettled (h.isSettled_of_mem_taken hj)]
  main := hmain

/-- The main thread does not notice when a thread goes on with its task. -/
theorem MainSound.advance (h : s.MainSound) (hunsettled : (s.tasks i).isSettled = false)
    (hgrows : Grows s.run run) (hne : task ≠ .dropped) :
    ({ s.setTask i task with run } : Pool clusters).MainSound := by
  unfold MainSound at h ⊢
  dsimp only [setTask] at h ⊢
  split at h
  next =>
    obtain ⟨hall, hnone⟩ := h
    refine ⟨fun j hj => ?_, setTask_ne_dropped hnone hne⟩
    obtain ⟨a, ha⟩ := hall j hj
    exact ⟨a, (tasks_setTask_of_isSettled hunsettled (by rw [ha]; rfl)).trans ha⟩
  next => exact setTask_ne_dropped h hne
  next => exact setTask_ne_dropped h hne
  next => exact setTask_ne_dropped h hne
  next =>
    obtain ⟨j, hj⟩ := h
    exact ⟨j, (tasks_setTask_of_isSettled hunsettled (by rw [hj]; rfl)).trans hj⟩
  next =>
    obtain ⟨j, hj⟩ := h
    exact ⟨j, (tasks_setTask_of_isSettled hunsettled (by rw [hj]; rfl)).trans hj⟩
  next => exact ⟨h.1, fun hmissing => hgrows.aborted (h.2 hmissing)⟩
  next => trivial
  next => trivial

/-- A step of the main thread that takes no result and calls off no task. -/
theorem Sound.goTo (h : s.Sound P) (hgrows : Grows s.run run) {main : Main clusters.length}
    (hmain : ({ s with run, main } : Pool clusters).MainSound) :
    ({ s with run, main } : Pool clusters).Sound P where
  tasks := fun i => (h.tasks i).grow hgrows
  taken := h.taken
  find?_iff := h.find?_iff
  main := hmain

theorem Sound.ne_dropped (h : s.Sound P)
    (hmain : s.main = .taking ∨ s.main = .reporting ∨ s.main = .refused ∨ s.main = .polling) :
    ∀ i, s.tasks i ≠ .dropped := by
  have hsound := h.main
  unfold MainSound at hsound
  rcases hmain with hmain | hmain | hmain | hmain <;> rw [hmain] at hsound
  · exact hsound.2
  · exact hsound
  · exact hsound
  · exact hsound

/-- A pool fails with what one of its tasks has failed with. -/
theorem Sound.exists_of_failed (h : s.Sound P) {e : Failure} (hmain : s.main = .failed e) :
    ∃ i, s.tasks i = .finished (.error e) ∧ P i (.error e) := by
  have hfailed := h.main
  unfold MainSound at hfailed
  rw [hmain] at hfailed
  obtain ⟨i, hi⟩ := hfailed
  have htask := h.tasks i
  rw [hi] at htask
  exact ⟨i, hi, htask⟩

/-- As many analyses as there are clusters leave none out. -/
theorem Sound.find?_ne_none (h : s.Sound P) (hsize : clusters.length ≤ s.finished.size)
    {c : Cluster} (hc : c ∈ clusters) : s.finished.find? c.id ≠ none := by
  have hsubset : s.finished.keys ⊆ clusters.map (·.id) := by
    intro id hid
    obtain ⟨a, ha⟩ := Ledger.mem_keys_iff.1 hid
    obtain ⟨i, -, rfl, -⟩ := (h.find?_iff id a).1 ha
    exact List.mem_map_of_mem (List.get_mem ..)
  have hperm : s.finished.keys.Perm (clusters.map (·.id)) := by
    refine (List.subperm_of_subset s.finished.nodup hsubset).perm_of_length_le ?_
    simpa [Ledger.keys, Ledger.size] using hsize
  rw [ne_eq, Ledger.find?_eq_none_iff, not_not, hperm.mem_iff]
  exact List.mem_map_of_mem hc

section

variable (hids : (clusters.map (·.id)).Nodup)
include hids

theorem eq_of_id_eq {i j : Fin clusters.length} (h : (clusters.get i).id = (clusters.get j).id) :
    i = j := by
  have hsame : clusters.get i = clusters.get j :=
    List.inj_on_of_nodup_map hids (List.get_mem ..) (List.get_mem ..) h
  exact List.nodup_iff_injective_get.1 hids.of_map hsame

/-- Taking what has come of a task. -/
theorem Sound.take {result : Option ClusterAnalysis} (h : s.Sound P) (hmain : s.main = .taking)
    (htask : s.tasks i = .finished (.ok result)) : (s.take i result).Sound P where
  tasks := h.tasks
  taken := by
    intro j hj
    rcases Finset.mem_insert.1 hj with rfl | hj
    · exact ⟨result, htask⟩
    · exact h.taken j hj
  find?_iff := by
    intro id a
    change _ ↔ ∃ j ∈ insert i s.taken,
      (clusters.get j).id = id ∧ s.tasks j = .finished (.ok (some a))
    rw [Finset.exists_mem_insert, ← h.find?_iff, htask]
    cases result with
    | none => simp [Pool.take]
    | some b =>
      have hkeeps (hid : id = (clusters.get i).id) (ha : s.finished.find? id = some a) : b = a := by
        obtain ⟨j, -, hj, hresult⟩ := (h.find?_iff id a).1 ha
        obtain rfl := eq_of_id_eq hids (hj.trans hid)
        simpa [htask] using hresult
      change (s.finished.record (clusters.get i).id b).find? id = some a ↔ _
      rw [Ledger.find?_record]
      by_cases hid : id = (clusters.get i).id
      · simpa [hid] using fun ha => hkeeps hid (hid ▸ ha)
      · rw [if_neg hid, or_iff_right fun h => hid h.1.symm]
  main := h.ne_dropped (.inl hmain)

/-- Each step keeps to it. -/
theorem Sound.step (hwork : ∀ i, (clusterWork setting (clusters.get i)).All (P i))
    (h : s.Sound P) (hstep : Step setting workers s s') : s'.Sound P := by
  cases hstep with
  | @start i hwaiting =>
    have hunsettled : (s.tasks i).isSettled = false := by
      rw [hwaiting]
      rfl
    have hstarted : Task.Sound (P i) s.run .started := trivial
    exact h.update hunsettled (.refl _) hstarted (h.main.advance hunsettled (.refl _) nofun)
  | @act i run task hstep =>
    have hunsettled : (s.tasks i).isSettled = false := by
      have hrunning := hstep.isRunning
      revert hrunning
      cases s.tasks i <;> simp [Task.isSettled, Task.isRunning]
    exact h.update hunsettled hstep.grows (hstep.sound (hwork i) (h.tasks i))
      (h.main.advance hunsettled hstep.grows hstep.ne_dropped)
  | take hmain hnew htask => exact h.take hids hmain htask
  | raise hmain hnew htask => exact h.goTo (.refl _) ⟨_, htask⟩
  | report hmain =>
    have hnone := h.ne_dropped (.inr (.inl hmain))
    refine h.goTo (grows_tell s.run s.progress) ?_
    cases s.run.allows s.progress <;> exact hnone
  | cancel hmain =>
    have hnone := h.ne_dropped (.inr (.inr (.inl hmain)))
    exact h.goTo (grows_cancel s.run) hnone
  | goOn hmain hrun =>
    refine h.goTo (.refl _) ⟨fun i hi => ?_, h.ne_dropped (.inr (.inr (.inr hmain)))⟩
    obtain ⟨result, hresult⟩ := h.taken i hi
    cases result with
    | some a => exact ⟨a, hresult⟩
    | none =>
      have hcancelled := h.tasks i
      rw [hresult] at hcancelled
      cases hcancelled.symm.trans hrun
  | stop hmain hrun => exact h.goTo (.refl _) trivial
  | @drop i left hmain htask =>
    have hunsettled : (s.tasks i).isSettled = false := by
      rw [htask]
      rfl
    have hdropped : Task.Sound (P i) s.run .dropped := trivial
    exact h.update hunsettled (.refl _) hdropped trivial
  | pass hmain htask => exact h.goTo (.refl _) trivial
  | settle hmain => exact h.goTo (.refl _) trivial
  | close hmain hsettled =>
    by_cases hsize : s.finished.size < clusters.length
    · have hclose : s.close = { s with run := s.run.markAborted, main := .returned s.listed } := by
        rw [close, if_pos hsize]
      rw [hclose]
      exact h.goTo (grows_markAborted s.run) ⟨rfl, fun _ => rfl⟩
    · have hclose : s.close = { s with main := .returned s.listed } := by
        rw [close, if_neg hsize]
      rw [hclose]
      refine h.goTo (.refl _) ⟨rfl, fun hmissing => ?_⟩
      obtain ⟨c, hc, hnone⟩ := hmissing
      exact absurd hnone (h.find?_ne_none (Nat.le_of_not_lt hsize) hc)
  | finish hmain hall =>
    refine h.goTo (.refl _) ⟨rfl, fun hmissing => ?_⟩
    obtain ⟨c, hc, hnone⟩ := hmissing
    obtain ⟨i, rfl⟩ := List.get_of_mem hc
    have hi : i ∈ s.taken := hall ▸ Finset.mem_univ i
    have htaking := h.main
    unfold MainSound at htaking
    rw [hmain] at htaking
    obtain ⟨a, ha⟩ := htaking.1 i hi
    rw [(h.find?_iff _ a).2 ⟨i, hi, rfl, ha⟩] at hnone
    cases hnone
  | fail hmain hsettled =>
    have hraised := h.main
    unfold MainSound at hraised
    rw [hmain] at hraised
    exact h.goTo (.refl _) hraised

theorem sound_of_reached (hwork : ∀ i, (clusterWork setting (clusters.get i)).All (P i))
    (h : Reached setting workers run s) : s.Sound P := by
  induction h with
  | refl => exact sound_initial run
  | tail _ hstep ih => exact ih.step hids hwork hstep

/-- The analyses returned are in the order of the clusters, and all collected; when a cluster has
none, the run is marked as aborted. -/
theorem Sound.returned (h : s.Sound P) (hP : ∀ i a, P i (.ok a) → a.cluster = clusters.get i)
    {analyses : List ClusterAnalysis} (hmain : s.main = .returned analyses) :
    (analyses.map (·.cluster)).Sublist clusters ∧ (∀ a ∈ analyses, a ∈ s.run.results) ∧
      ((∃ c ∈ clusters, c ∉ analyses.map (·.cluster)) → s.run.aborted = true) := by
  have hreturned := h.main
  unfold MainSound at hreturned
  rw [hmain] at hreturned
  obtain ⟨rfl, hmissing⟩ := hreturned
  have hfound {c : Cluster} (hc : c ∈ clusters) {a : ClusterAnalysis}
      (ha : s.finished.find? c.id = some a) : a.cluster = c ∧ a ∈ s.run.results := by
    obtain ⟨i, -, hid, hresult⟩ := (h.find?_iff _ a).1 ha
    obtain ⟨j, rfl⟩ := List.get_of_mem hc
    obtain rfl := eq_of_id_eq hids hid
    have hsound := h.tasks i
    rw [hresult] at hsound
    exact ⟨hP i a hsound.1, hsound.2⟩
  refine ⟨?_, fun a ha => ?_, fun hgap => hmissing ?_⟩
  · exact map_filterMap_sublist fun c hc a ha => (hfound hc ha).1
  · obtain ⟨c, hc, hfind⟩ := List.mem_filterMap.1 ha
    exact (hfound hc hfind).2
  · obtain ⟨c, hc, hgap⟩ := hgap
    refine ⟨c, hc, Option.eq_none_iff_forall_ne_some.2 fun a ha => hgap ?_⟩
    have hlisted : a ∈ s.listed := List.mem_filterMap.2 ⟨c, hc, ha⟩
    exact List.mem_map.2 ⟨a, hlisted, (hfound hc ha).1⟩

end

end Pool

end RoleMining.Analysis
