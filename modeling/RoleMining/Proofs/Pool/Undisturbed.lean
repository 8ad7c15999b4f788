import Mathlib.Data.List.Perm.Basic
import RoleMining.Proofs.Pool.Safety

/-!
# A pool that nothing disturbs

On an undisturbed run every task is bound for the outcome that its work has by itself, no matter
when its thread goes on. Nothing is skipped or called off, and every analysis is collected once. So
the pool has the answer of the loop that goes through the clusters one after the other.
-/
namespace RoleMining.Analysis

/-- An item is added to those that come of a list when one more of its elements has it. -/
theorem filterMap_perm_append {ι β : Type} [DecidableEq ι] {l : List ι} (hl : l.Nodup) {i : ι}
    (hi : i ∈ l) {f g : ι → Option β} (hsame : ∀ j, j ≠ i → g j = f j) (hnone : f i = none) :
    (l.filterMap g).Perm (l.filterMap f ++ (g i).toList) := by
  have hfirst (f : ι → Option β) :
      (l.filterMap f).Perm ((f i).toList ++ (l.erase i).filterMap f) := by
    refine ((List.perm_cons_erase hi).filterMap f).trans (List.Perm.of_eq ?_)
    cases h : f i <;> simp [h]
  have hrest : (l.erase i).filterMap g = (l.erase i).filterMap f :=
    List.filterMap_congr fun j hj => hsame j ((hl.mem_erase_iff.1 hj).1)
  have hold : (l.filterMap f).Perm ((l.erase i).filterMap f) := by simpa [hnone] using hfirst f
  refine (hfirst g).trans ?_
  rw [hrest]
  exact List.perm_append_comm.trans (hold.symm.append_right _)

/-- Steps that all have what is looked up for them. -/
theorem forall₂_filterMap {β γ : Type} {R : β → γ → Prop} {f : β → Option γ} {xs : List β}
    (h : ∀ x ∈ xs, ∃ y, f x = some y ∧ R x y) : List.Forall₂ R xs (xs.filterMap f) := by
  induction xs with
  | nil => exact .nil
  | cons x xs ih =>
    obtain ⟨y, hy, hxy⟩ := h x List.mem_cons_self
    rw [List.filterMap_cons_some hy]
    exact .cons hxy (ih fun x' hx' => h x' (List.mem_cons_of_mem x hx'))

/-- What the analysis of a cluster comes to when nothing stops it. -/
def expected (setting : Setting) (every : ℕ) (cluster : Cluster) : Except Failure ClusterAnalysis :=
  (clusterWork setting cluster).outcome every

theorem calm_expected (setting : Setting) (every : ℕ) (cluster : Cluster) :
    (clusterWork setting cluster).Calm every fun x => x = expected setting every cluster :=
  (calm_clusterWork setting cluster).outcome_eq

variable {setting : Setting} {clusters : List Cluster} {run run' base : AnalysisRun}

/-! ### One cluster after the other -/

/-- On a cancelled run the loop analyses nothing. -/
theorem analyzeClusters_cons_of_cancelled (hrun : run.cancelled = true) {total done : ℕ}
    {finished : List ClusterAnalysis} {cluster : Cluster} :
    analyzeClusters setting total done run finished (cluster :: clusters) =
      .ok (if finished.length < total then (run.checkpoint (report total (done + 1))).markAborted
        else run.checkpoint (report total (done + 1)), finished) := by
  have hstopped : (run.checkpoint (report total (done + 1))).cancelled = true := by
    simp [Run.checkpoint, hrun]
  rw [analyzeClusters, if_pos hrun]
  exact if_pos hstopped

/-- The loop over the clusters collects what it adds to the finished analyses, for a first part of
the clusters; it marks the run when it leaves some out. -/
theorem exists_of_analyzeClusters {total done : ℕ} {finished analyses : List ClusterAnalysis}
    {after : AnalysisRun} (hdone : finished.length = done)
    (htotal : done + clusters.length = total)
    (h : analyzeClusters setting total done run finished clusters = .ok (after, analyses)) :
    ∃ added, analyses = finished ++ added ∧ added.map (·.cluster) <+: clusters ∧
      after.results = run.results ++ added ∧
      (added.length < clusters.length → after.aborted = true) := by
  induction clusters generalizing run done finished with
  | nil =>
    obtain ⟨rfl, rfl⟩ := Prod.mk.inj (Except.ok.inj h)
    exact ⟨[], by simp, List.prefix_rfl, by simp, nofun⟩
  | cons cluster clusters ih =>
    rw [List.length_cons] at htotal
    cases hrun : run.cancelled with
    | true =>
      rw [analyzeClusters_cons_of_cancelled hrun, if_pos (by omega)] at h
      obtain ⟨rfl, rfl⟩ := Prod.mk.inj (Except.ok.inj h)
      exact ⟨[], by simp, List.nil_prefix, by simp [Run.checkpoint, Run.markAborted], fun _ => rfl⟩
    | false =>
      rw [analyzeClusters_cons hrun] at h
      obtain ⟨⟨mid, a⟩, hcluster, hloop⟩ := bind_eq_ok_iff.1 h
      have hresults : (advance total (done + 1) (mid, a)).results = run.results ++ [a] := by
        have hkeeps := Work.keeps_of_perform ((perform_clusterWork ..).trans hcluster)
        exact congrArg (· ++ [a]) hkeeps.results
      obtain rfl := cluster_of_analyzeCluster hcluster
      split at hloop
      next hstopped =>
        obtain ⟨rfl, rfl⟩ := Prod.mk.inj (Except.ok.inj hloop)
        refine ⟨[a], rfl, List.cons_prefix_cons.2 ⟨rfl, List.nil_prefix⟩, ?_, fun hleft => ?_⟩
        · split <;> exact hresults
        · rw [List.length_singleton, List.length_cons] at hleft
          rw [if_pos (by omega)]
          rfl
      next hgoing =>
        obtain ⟨added, hadded, hinitial, hcollected, hmissing⟩ :=
          ih (by simp [hdone]) (by omega) hloop
        refine ⟨a :: added, ?_, ?_, ?_, fun hleft => hmissing ?_⟩
        · rw [hadded, List.append_assoc, List.singleton_append]
        · exact List.cons_prefix_cons.2 ⟨rfl, hinitial⟩
        · rw [hcollected, hresults, List.append_assoc, List.singleton_append]
        · simpa using hleft

/-- The loop over the clusters comes to what the analysis of each of them comes to. -/
theorem analyzeClusters_of_undisturbed (setting : Setting) (clusters : List Cluster)
    (hrun : run.Undisturbed) (total done : ℕ)
    (finished : List ClusterAnalysis) :
    (∃ analyses after, clusters.mapM (expected setting run.pollEvery) = .ok analyses ∧
      analyzeClusters setting total done run finished clusters =
        .ok (after, finished ++ analyses) ∧ after.Undisturbed) ∨
    ∃ e, clusters.mapM (expected setting run.pollEvery) = .error e ∧
      analyzeClusters setting total done run finished clusters = .error e := by
  induction clusters generalizing run done finished with
  | nil => exact .inl ⟨[], run, rfl, by rw [List.append_nil]; rfl, hrun⟩
  | cons cluster clusters ih =>
    obtain ⟨mid, x, hmid, hx, hperform⟩ :=
      (calm_expected setting run.pollEvery cluster).exists_perform_eq hrun
    rw [analyzeClusters_cons hrun.running, ← perform_clusterWork, hperform, List.mapM_cons, ← hx]
    cases x with
    | error e => exact .inr ⟨e, rfl, rfl⟩
    | ok a =>
      have hnext : (advance total (done + 1) (mid, a)).Undisturbed :=
        (continues_advance (mid, a)).undisturbed hmid
      have hevery : (advance total (done + 1) (mid, a)).pollEvery = run.pollEvery :=
        (Work.keeps_of_perform hperform).pollEvery
      have hgoes : (advance total (done + 1) (mid, a)).cancelled = false := hnext.running
      rcases ih hnext (done + 1) (finished ++ [a]) with
        ⟨analyses, after, hrest, hloop, hafter⟩ | ⟨e, hrest, hloop⟩
      · refine .inl ⟨a :: analyses, after, ?_, ?_, hafter⟩
        · rw [← hevery, hrest]
          rfl
        · refine (if_neg (by simp [hgoes])).trans (hloop.trans ?_)
          rw [List.append_assoc, List.singleton_append]
      · refine .inr ⟨e, ?_, (if_neg (by simp [hgoes])).trans hloop⟩
        rw [← hevery, hrest]
        rfl

/-! ### All at a time -/

namespace Task

variable {work : Work ClusterAnalysis} {t t' : Task} {every : ℕ}
variable {x : Except Failure ClusterAnalysis}

/-- The task is bound for an outcome, or has come to it. -/
def Calm (every : ℕ) (x : Except Failure ClusterAnalysis) : Task → Prop
  | waiting => True
  | started => True
  | working w => w.Calm every fun y => y = x
  | analysed a => x = .ok a
  | finished (.ok (some a)) => x = .ok a
  | finished (.ok none) => False
  | finished (.error e) => x = .error e
  | dropped => False

theorem Step.calm (h : Step work run t run' t')
    (hwork : work.Calm run.pollEvery fun y => y = x) (ht : t.Calm run.pollEvery x)
    (hrun : run.Undisturbed) : run'.Undisturbed ∧ t'.Calm run.pollEvery x := by
  cases h with
  | skip hcancelled => cases hcancelled.symm.trans hrun.running
  | begin => exact ⟨hrun, hwork⟩
  | access hstep => exact Work.Calm.of_step ht hrun hstep
  | answer => exact ⟨hrun, Eq.symm ht⟩
  | fail => exact ⟨hrun, Eq.symm ht⟩
  | @collect a => exact ⟨(run.continues_collect a).undisturbed hrun, ht⟩

/-- An analysis is collected when it has come of its task. -/
theorem Step.collected (h : Step work run t run' t') : run'.pollEvery = run.pollEvery ∧
    t.analysis? = none ∧ run'.results = run.results ++ t'.analysis?.toList := by
  cases h with
  | skip => exact ⟨rfl, rfl, (List.append_nil _).symm⟩
  | begin => exact ⟨rfl, rfl, (List.append_nil _).symm⟩
  | access hstep =>
    have hkeeps := Work.keeps_of_step hstep
    exact ⟨hkeeps.pollEvery, rfl, hkeeps.results.trans (List.append_nil _).symm⟩
  | answer => exact ⟨rfl, rfl, (List.append_nil _).symm⟩
  | fail => exact ⟨rfl, rfl, (List.append_nil _).symm⟩
  | collect => exact ⟨rfl, rfl, rfl⟩

end Task

/-- The main thread has not heard of a stop. -/
def Main.isGoing {n : ℕ} : Main n → Bool
  | refused | dropping _ | closing => false
  | _ => true

namespace Pool

variable {workers : Number} {s s' : Pool clusters} {i : Fin clusters.length} {task : Task}

/-- The analyses that have come of the tasks so far. -/
def made (s : Pool clusters) : List ClusterAnalysis :=
  (List.finRange clusters.length).filterMap fun i => (s.tasks i).analysis?

theorem made_setTask (hnone : (s.tasks i).analysis? = none) :
    (s.setTask i task).made.Perm (s.made ++ task.analysis?.toList) := by
  have hperm := filterMap_perm_append (List.nodup_finRange clusters.length) (List.mem_finRange i)
    (f := fun j => (s.tasks j).analysis?) (g := fun j => ((s.setTask i task).tasks j).analysis?)
    (fun j hj => by rw [tasks_setTask_of_ne hj]) hnone
  rw [tasks_setTask_self] at hperm
  exact hperm

/-- What holds of a pool on a run that was undisturbed at the start. -/
structure Calm (setting : Setting) (base : AnalysisRun) (s : Pool clusters) : Prop where
  undisturbed : s.run.Undisturbed
  pollEvery : s.run.pollEvery = base.pollEvery
  tasks : ∀ i, (s.tasks i).Calm base.pollEvery (expected setting base.pollEvery (clusters.get i))
  sink : s.run.results.Perm (base.results ++ s.made)
  main : s.main.isGoing = true

theorem calm_initial (hbase : base.Undisturbed) : (initial clusters base).Calm setting base where
  undisturbed := hbase
  pollEvery := rfl
  tasks := fun _ => trivial
  sink := by simp [made, initial, Task.analysis?]
  main := rfl

/-- The main thread goes on without collecting anything. -/
theorem Calm.goTo (h : s.Calm setting base) (hrun : run.Undisturbed)
    (hevery : run.pollEvery = s.run.pollEvery) (hresults : run.results = s.run.results)
    {taken : Finset (Fin clusters.length)} {finished : Ledger ℕ ClusterAnalysis}
    {main : Main clusters.length} (hmain : main.isGoing = true) :
    ({ s with run, taken, finished, main } : Pool clusters).Calm setting base where
  undisturbed := hrun
  pollEvery := hevery.trans h.pollEvery
  tasks := h.tasks
  sink := by
    change run.results.Perm (base.results ++ s.made)
    rw [hresults]
    exact h.sink
  main := hmain

/-- A thread goes on with its task, and collects what has come of it. -/
theorem Calm.advance (h : s.Calm setting base) (hrun : run.Undisturbed)
    (hevery : run.pollEvery = s.run.pollEvery) (hnone : (s.tasks i).analysis? = none)
    (hresults : run.results = s.run.results ++ task.analysis?.toList)
    (htask : task.Calm base.pollEvery (expected setting base.pollEvery (clusters.get i))) :
    ({ s.setTask i task with run } : Pool clusters).Calm setting base where
  undisturbed := hrun
  pollEvery := hevery.trans h.pollEvery
  tasks := by
    intro j
    by_cases hj : j = i
    · subst hj
      rw [tasks_setTask_self]
      exact htask
    · rw [tasks_setTask_of_ne hj]
      exact h.tasks j
  sink := by
    change run.results.Perm (base.results ++ (s.setTask i task).made)
    rw [hresults]
    refine (h.sink.append_right _).trans ?_
    rw [List.append_assoc]
    exact (made_setTask hnone).symm.append_left _
  main := h.main

theorem Calm.step (h : s.Calm setting base) (hstep : Step setting workers s s') :
    s'.Calm setting base := by
  cases hstep with
  | @start i hwaiting =>
    have hnone : (s.tasks i).analysis? = none := by rw [hwaiting]; rfl
    exact h.advance h.undisturbed rfl hnone (List.append_nil _).symm trivial
  | @act i run task hstep =>
    obtain ⟨hevery, hnone, hresults⟩ := hstep.collected
    have hwork := calm_expected setting s.run.pollEvery (clusters.get i)
    have htask := h.tasks i
    rw [← h.pollEvery] at htask
    obtain ⟨hrun, hcalm⟩ := hstep.calm hwork htask h.undisturbed
    rw [h.pollEvery] at hcalm
    exact h.advance hrun hevery hnone hresults hcalm
  | take => exact h.goTo h.undisturbed rfl rfl rfl
  | raise => exact h.goTo h.undisturbed rfl rfl rfl
  | report =>
    rw [h.undisturbed.allows]
    exact h.goTo (h.undisturbed.tell s.progress) rfl rfl rfl
  | cancel hmain => exact absurd h.main (by simp [hmain, Main.isGoing])
  | goOn => exact h.goTo h.undisturbed rfl rfl rfl
  | stop hmain hrun => cases hrun.symm.trans h.undisturbed.running
  | drop hmain => exact absurd h.main (by simp [hmain, Main.isGoing])
  | pass hmain => exact absurd h.main (by simp [hmain, Main.isGoing])
  | settle hmain => exact absurd h.main (by simp [hmain, Main.isGoing])
  | close hmain => exact absurd h.main (by simp [hmain, Main.isGoing])
  | finish => exact h.goTo h.undisturbed rfl rfl rfl
  | fail => exact h.goTo h.undisturbed rfl rfl rfl

theorem calm_of_reached (hbase : base.Undisturbed) (h : Reached setting workers base s) :
    s.Calm setting base := by
  induction h with
  | refl => exact calm_initial hbase
  | tail _ hstep ih => exact ih.step hstep

variable {P : Fin clusters.length → Except Failure ClusterAnalysis → Prop}

/-- A pool that fails has a failure of one of the analyses. -/
theorem Calm.exists_of_failed (h : s.Calm setting base) (hs : s.Sound P) {e : Failure}
    (hmain : s.main = .failed e) :
    ∃ c ∈ clusters, expected setting base.pollEvery c = .error e := by
  obtain ⟨i, hi, -⟩ := hs.exists_of_failed hmain
  have htask := h.tasks i
  rw [hi] at htask
  exact ⟨clusters.get i, List.get_mem .., htask⟩

section

variable (hids : (clusters.map (·.id)).Nodup)
include hids

/-- A pool that returns without a mark has an analysis of every cluster. -/
theorem Sound.exists_found (h : s.Sound P) {analyses : List ClusterAnalysis}
    (hmain : s.main = .returned analyses) (hcomplete : s.run.aborted = false) :
    analyses = s.listed ∧ ∀ i : Fin clusters.length, ∃ a,
      s.finished.find? (clusters.get i).id = some a ∧ s.tasks i = .finished (.ok (some a)) := by
  have hreturned := h.main
  unfold MainSound at hreturned
  rw [hmain] at hreturned
  obtain ⟨rfl, hmissing⟩ := hreturned
  refine ⟨rfl, fun i => ?_⟩
  cases hfind : s.finished.find? (clusters.get i).id with
  | none => cases (hmissing ⟨_, List.get_mem .., hfind⟩).symm.trans hcomplete
  | some a =>
    obtain ⟨j, -, hid, hresult⟩ := (h.find?_iff _ a).1 hfind
    obtain rfl := eq_of_id_eq hids hid
    exact ⟨a, rfl, hresult⟩

/-- When the analyses made are those of a function, the pool returns what it gives, in the order of
the clusters. -/
theorem Sound.mapM_eq_ok (h : s.Sound P) {analyses : List ClusterAnalysis}
    (hmain : s.main = .returned analyses) (hcomplete : s.run.aborted = false)
    {f : Cluster → Except Failure ClusterAnalysis}
    (hf : ∀ i a, s.tasks i = .finished (.ok (some a)) → f (clusters.get i) = .ok a) :
    clusters.mapM f = .ok analyses := by
  obtain ⟨rfl, hfound⟩ := h.exists_found hids hmain hcomplete
  refine mapM_eq_ok_iff.2 (forall₂_filterMap fun c hc => ?_)
  obtain ⟨i, rfl⟩ := List.get_of_mem hc
  obtain ⟨a, ha, hresult⟩ := hfound i
  exact ⟨a, ha, hf i a hresult⟩

/-- A pool that returns has the outcomes of all analyses, in the order of the clusters, and each of
them is collected once. -/
theorem Calm.returned (h : s.Calm setting base) (hs : s.Sound P)
    {analyses : List ClusterAnalysis} (hmain : s.main = .returned analyses) :
    clusters.mapM (expected setting base.pollEvery) = .ok analyses ∧
      s.run.results.Perm (base.results ++ analyses) := by
  have hcomplete := h.undisturbed.complete
  constructor
  · refine hs.mapM_eq_ok hids hmain hcomplete fun i a hresult => ?_
    have htask := h.tasks i
    rw [hresult] at htask
    exact htask
  · obtain ⟨rfl, hfound⟩ := hs.exists_found hids hmain hcomplete
    have hlisted : s.listed = (List.finRange clusters.length).filterMap
        ((fun c => s.finished.find? c.id) ∘ clusters.get) := by
      rw [← List.filterMap_map, List.map_get_finRange]
      rfl
    have hmade : s.made = s.listed := by
      rw [hlisted]
      refine List.filterMap_congr fun i _ => ?_
      obtain ⟨a, ha, hresult⟩ := hfound i
      rw [hresult]
      exact ha.symm
    rw [← hmade]
    exact h.sink

end

end Pool

end RoleMining.Analysis
