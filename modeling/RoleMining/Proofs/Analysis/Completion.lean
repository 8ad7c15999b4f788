import RoleMining.Proofs.Cluster.Stages
import RoleMining.Proofs.Analysis.Mining

/-!
# A completed analysis is complete

Clustering and every analysis of a cluster are stoppable, and a stop that they noted makes the whole
analysis an aborted one. Between them stands one report that may be refused without harm: the one
after the last cluster. The walk through the clusters goes by induction on those that are left; it
keeps the run uncancelled for as long as it goes on.
-/
namespace RoleMining.Analysis

variable {setting : Setting} {records : List Record} {cluster : Cluster} {a : ClusterAnalysis}
variable {run full after reached : AnalysisRun} {total done : ℕ}
variable {finished finished' analyses whole : List ClusterAnalysis} {clusters : List Cluster}

theorem cluster_of_analyzeCluster (h : analyzeCluster setting cluster run = .ok (after, a)) :
    a.cluster = cluster := by
  obtain ⟨⟨mid, mined⟩, -, hof⟩ := bind_eq_ok_iff.1 h
  cases hof
  rfl

/-- The report after some cluster. -/
def report (total done : ℕ) : Report := ⟨(done : ℤ), total, done == total⟩

/-- The run after the analysis of a cluster: the analysis is collected, and the run is told. -/
def advance (total done : ℕ) (x : AnalysisRun × ClusterAnalysis) : AnalysisRun :=
  (x.1.collect x.2).checkpoint (report total done)

theorem analyzeClusters_cons (hrun : run.cancelled = false) :
    analyzeClusters setting total done run finished (cluster :: clusters) =
      analyzeCluster setting cluster run >>= fun x =>
        if (advance total (done + 1) x).cancelled then
          .ok (if finished.length + 1 < total then (advance total (done + 1) x).markAborted
            else advance total (done + 1) x, finished ++ [x.2])
        else analyzeClusters setting total (done + 1) (advance total (done + 1) x)
          (finished ++ [x.2]) clusters := by
  rw [analyzeClusters, hrun]
  simp only [Bool.false_eq_true, if_false]
  congr 1
  funext x
  simp only [pure_bind, List.length_append, List.length_singleton]
  rfl

/-- What the analyses of the remaining clusters do to an uncancelled run. -/
structure Concludes (total : ℕ) (run after : AnalysisRun) (clusters : List Cluster)
    (finished analyses : List ClusterAnalysis) : Prop where
  continues : run.Continues after
  /-- The run is complete when at most the report after the last cluster was refused. -/
  complete_iff : run.aborted = false →
    (after.aborted = false ↔ Run.RefusedOnlyAt run after (report total total))
  /-- A complete run has analysed all clusters. -/
  clusters_eq : after.aborted = false →
    analyses.map (·.cluster) = finished.map (·.cluster) ++ clusters

theorem report_inj : report total done = report total total ↔ done = total := by
  simp [report]

theorem continues_advance (x : AnalysisRun × ClusterAnalysis) :
    x.1.Continues (advance total done x) :=
  (x.1.continues_collect x.2).trans (Run.continues_checkpoint _ _)

/-- A stop after a cluster leaves a complete run when it was the last cluster, and its own report
was the first one refused. -/
theorem concludes_of_stopped {mid : AnalysisRun} (hrun : run.cancelled = false)
    (hmid : run.Continues mid) (htold : mid.Told)
    (hstopped : (advance total (done + 1) (mid, a)).cancelled = true)
    (hdone : finished.length = done) (htotal : done + (clusters.length + 1) = total) :
    Concludes total run
      (if finished.length + 1 < total then (advance total (done + 1) (mid, a)).markAborted
        else advance total (done + 1) (mid, a))
      (a.cluster :: clusters) finished (finished ++ [a]) := by
  have hadvance : mid.Continues (advance total (done + 1) (mid, a)) := continues_advance (mid, a)
  have hlonger : mid.calls.length < (advance total (done + 1) (mid, a)).calls.length := by
    simp [advance, Run.checkpoint, Run.collect]
  have hrefused : Run.RefusedOnlyAt run (advance total (done + 1) (mid, a)) (report total total) ↔
      mid.cancelled = false ∧ done + 1 = total := by
    cases hcancelled : mid.cancelled with
    | true => simp [Run.not_refusedOnlyAt hmid hrun hcancelled hadvance hlonger]
    | false =>
      have hcollected : (mid.collect a).cancelled = false := hcancelled
      rw [Run.refusedOnlyAt_iff_of_running hmid hcancelled hadvance, ← report_inj]
      exact (Run.refusedOnlyAt_checkpoint_iff hcollected hstopped).trans (by simp)
  split
  next hleft =>
    have hnot : ¬ Run.RefusedOnlyAt run (advance total (done + 1) (mid, a)) (report total total) :=
      fun h => by have := hrefused.1 h; omega
    exact ⟨(hmid.trans hadvance).trans (Run.continues_markAborted hstopped),
      fun _ => iff_of_false (by simp [Run.markAborted]) hnot, fun hafter => by cases hafter⟩
  next hall =>
    have hnone : clusters = [] := List.length_eq_zero_iff.1 (by omega)
    refine ⟨hmid.trans hadvance, fun haborted => ?_, fun _ => by simp [hnone]⟩
    have hkeeps : (advance total (done + 1) (mid, a)).aborted = mid.aborted := rfl
    rw [hrefused, hkeeps, and_iff_left (by omega)]
    exact ⟨htold.running, hmid.complete haborted⟩

variable (hsetting : setting.records = Record.directory records)
include hsetting

theorem stoppable_analyzeCluster (cluster : Cluster) :
    Stoppable (analyzeCluster setting cluster) := by
  have hoids : ((Mined.membersOf setting.records cluster.members.toList).map (·.oid)).Nodup := by
    rw [hsetting]
    exact (Mined.oid_membersOf_sublist records _).nodup cluster.members.nodup_toList
  exact (Mined.stoppable_ofMembers cluster.mode setting.detection setting.frequencies
    setting.weights hoids).map fun mined => ({ cluster, mined } : ClusterAnalysis)

theorem concludes_analyzeClusters (hrun : run.cancelled = false)
    (hdone : finished.length = done) (htotal : done + clusters.length = total)
    (h : analyzeClusters setting total done run finished clusters = .ok (after, analyses)) :
    Concludes total run after clusters finished analyses := by
  induction clusters generalizing run done finished with
  | nil =>
    obtain ⟨rfl, rfl⟩ := Prod.mk.inj (Except.ok.inj h)
    have hnone : Run.RefusedOnlyAt run run (report total total) :=
      Run.refusedOnlyAt_of_running (.refl run) hrun
    exact ⟨.refl run, fun haborted => iff_of_true haborted hnone, fun _ => by simp⟩
  | cons cluster clusters ih =>
    rw [analyzeClusters_cons hrun] at h
    obtain ⟨⟨mid, a⟩, hcluster, h⟩ := bind_eq_ok_iff.1 h
    have hmid := (stoppable_analyzeCluster hsetting cluster).continues hcluster
    have htold := (stoppable_analyzeCluster hsetting cluster).told hcluster
      (Run.told_of_running hrun)
    have hadvance : mid.Continues (advance total (done + 1) (mid, a)) :=
      continues_advance (mid, a)
    rw [List.length_cons] at htotal
    split at h
    next hstopped =>
      obtain ⟨rfl, rfl⟩ := Prod.mk.inj (Except.ok.inj h)
      obtain rfl := cluster_of_analyzeCluster hcluster
      exact concludes_of_stopped hrun hmid htold hstopped hdone htotal
    next hgoing =>
      have hrunning := eq_false_of_ne_true hgoing
      have hrest := ih hrunning (by simp [hdone]) (by omega) h
      have hbegun := hmid.trans hadvance
      refine ⟨hbegun.trans hrest.continues, fun haborted => ?_, fun hafter => ?_⟩
      · rw [hrest.complete_iff (hbegun.complete haborted hrunning),
          Run.refusedOnlyAt_iff_of_running hbegun hrunning hrest.continues]
      · rw [hrest.clusters_eq hafter, List.map_append, List.map_singleton,
          cluster_of_analyzeCluster hcluster, List.append_assoc, List.singleton_append]

/-- An undisturbed run goes on to the next cluster. -/
theorem analyzeClusters_cons_of_undisturbed (hfull : full.Undisturbed)
    (h : analyzeCluster setting cluster full = .ok (reached, a)) :
    (advance total (done + 1) (reached, a)).Undisturbed ∧
      analyzeClusters setting total done full finished (cluster :: clusters) =
        analyzeClusters setting total (done + 1) (advance total (done + 1) (reached, a))
          (finished ++ [a]) clusters := by
  have hcluster := (stoppable_analyzeCluster hsetting cluster).continues h
  have hadvance : full.Continues (advance total (done + 1) (reached, a)) :=
    hcluster.trans (continues_advance (reached, a))
  have hnext := hadvance.undisturbed hfull
  refine ⟨hnext, ?_⟩
  rw [analyzeClusters_cons hfull.running, h]
  exact if_neg (by simp [hnext.running])

theorem agrees_analyzeClusters (hfull : full.Undisturbed) (hrun : run.cancelled = false)
    (hdone : finished.length = done) (htotal : done + clusters.length = total)
    (h : analyzeClusters setting total done run finished clusters = .ok (after, analyses))
    (hafter : after.aborted = false) : ∃ reached,
      analyzeClusters setting total done full finished clusters = .ok (reached, analyses) := by
  induction clusters generalizing run full done finished with
  | nil =>
    obtain ⟨rfl, rfl⟩ := Prod.mk.inj (Except.ok.inj h)
    exact ⟨full, rfl⟩
  | cons cluster clusters ih =>
    rw [analyzeClusters_cons hrun] at h
    obtain ⟨⟨mid, a⟩, hcluster, h⟩ := bind_eq_ok_iff.1 h
    rw [List.length_cons] at htotal
    have hcomplete : mid.aborted = false → ∃ reached,
        analyzeCluster setting cluster full = .ok (reached, a) :=
      (stoppable_analyzeCluster hsetting cluster).agrees hfull hcluster
    split at h
    next =>
      obtain ⟨rfl, rfl⟩ := Prod.mk.inj (Except.ok.inj h)
      split at hafter
      next => cases hafter
      next hall =>
        obtain ⟨fullMid, hfullCluster⟩ := hcomplete hafter
        obtain rfl : clusters = [] := List.length_eq_zero_iff.1 (by omega)
        exact ⟨_, (analyzeClusters_cons_of_undisturbed hsetting hfull hfullCluster).2⟩
    next hgoing =>
      have hrunning := eq_false_of_ne_true hgoing
      have hrest := (concludes_analyzeClusters hsetting hrunning (by simp [hdone]) (by omega)
        h).continues
      obtain ⟨fullMid, hfullCluster⟩ := hcomplete (hrest.not_aborted hafter)
      obtain ⟨hnext, hgoes⟩ := analyzeClusters_cons_of_undisturbed hsetting hfull hfullCluster
      rw [hgoes]
      exact ih hnext hrunning (by simp [hdone]) (by omega) h

/-- The analyses finished so far have no part in whether the next ones succeed. -/
theorem returns_analyzeClusters (hfull : full.Undisturbed) (hrun : run.cancelled = false)
    (h : analyzeClusters setting total done full finished clusters = .ok (reached, whole)) :
    ∃ after analyses,
      analyzeClusters setting total done run finished' clusters = .ok (after, analyses) := by
  induction clusters generalizing run full done finished finished' with
  | nil => exact ⟨run, finished', rfl⟩
  | cons cluster clusters ih =>
    obtain ⟨⟨fullMid, b⟩, hfullCluster, -⟩ :=
      bind_eq_ok_iff.1 ((analyzeClusters_cons hfull.running).symm.trans h)
    obtain ⟨hnext, hgoes⟩ := analyzeClusters_cons_of_undisturbed hsetting hfull hfullCluster
    rw [hgoes] at h
    obtain ⟨mid, a, hcluster⟩ : ∃ mid a, analyzeCluster setting cluster run = .ok (mid, a) :=
      (stoppable_analyzeCluster hsetting cluster).returns hfull hfullCluster
    rw [analyzeClusters_cons hrun, hcluster]
    cases hstopped : (advance total (done + 1) (mid, a)).cancelled with
    | true => exact ⟨_, _, if_pos hstopped⟩
    | false =>
      obtain ⟨after, analyses, hrest⟩ := ih hnext hstopped h
      exact ⟨after, analyses, (if_neg (by simp [hstopped])).trans hrest⟩

omit hsetting

/-- The analyses of all clusters that a clustering has found, unless it was stopped. -/
def analysesOf (setting : Setting) (x : AnalysisRun × Clustering) :
    Except Failure (AnalysisRun × List ClusterAnalysis) :=
  if x.2.clusters.isEmpty || x.1.aborted then .ok (x.1, [])
  else analyzeClusters setting x.2.clusters.length 0 x.1 [] x.2.clusters

theorem analysesOf_of_nothing {x : AnalysisRun × Clustering}
    (h : x.2.clusters = [] ∨ x.1.aborted = true) : analysesOf setting x = .ok (x.1, []) :=
  if_pos (by simpa using h)

theorem analysesOf_of_going {x : AnalysisRun × Clustering} (hclusters : x.2.clusters ≠ [])
    (haborted : x.1.aborted = false) : analysesOf setting x =
      analyzeClusters setting x.2.clusters.length 0 x.1 [] x.2.clusters :=
  if_neg (by simp [hclusters, haborted])

/-- Clusters are analysed when there are some and the run has not been stopped. -/
theorem analysesOf_cases {x : AnalysisRun × Clustering} {y : AnalysisRun × List ClusterAnalysis}
    (h : analysesOf setting x = .ok y) :
    ((x.2.clusters = [] ∨ x.1.aborted = true) ∧ y = (x.1, [])) ∨
      (x.2.clusters ≠ [] ∧ x.1.aborted = false ∧
        analyzeClusters setting x.2.clusters.length 0 x.1 [] x.2.clusters = .ok y) := by
  by_cases hnothing : x.2.clusters = [] ∨ x.1.aborted = true
  · rw [analysesOf_of_nothing hnothing] at h
    exact .inl ⟨hnothing, (Except.ok.inj h).symm⟩
  · rw [not_or, Bool.not_eq_true] at hnothing
    rw [analysesOf_of_going hnothing.1 hnothing.2] at h
    exact .inr ⟨hnothing.1, hnothing.2, h⟩

/-- What the analyses of clusters have in common in an analysis of records. -/
def settingOf (settings : Settings) (mode : Mode) (records : List Record)
    (frequencies : Frequencies) : Setting where
  detection := settings.detection
  records := Record.directory (analysed mode records)
  frequencies
  weights := weightMap records

/-- The result of an analysis. -/
def resultOf (settings : Settings) (thresholds : Thresholds) (frequencies : Frequencies)
    (clustering : Clustering) (y : AnalysisRun × List ClusterAnalysis) : Analysis where
  aborted := y.1.aborted
  clusters := y.2
  statistics := .ofClusters (clustering.clusters.map Cluster.figures)
  clustering
  properties := frequencies.size
  band := frequencies.summary thresholds.band
  settings

theorem ofRecords_eq (finder : CommunityFinder) (settings : Settings) (records : List Record)
    (run : AnalysisRun) : ofRecords finder settings records run =
    settings.session.check >>= fun policy =>
    settings.detection.check >>= fun thresholds =>
    Frequencies.ofRecords (analysed policy.mode records) >>= fun frequencies =>
    Clustering.ofPopulation finder policy records run >>= fun x =>
    analysesOf (settingOf settings policy.mode records frequencies) x >>= fun y =>
    .ok (y.1, resultOf settings thresholds frequencies x.2 y) := by
  unfold ofRecords analysesOf
  refine bind_congr fun policy => bind_congr fun thresholds => bind_congr fun frequencies =>
    bind_congr fun x => ?_
  dsimp only
  split <;> rfl

section Clusters

variable {x : AnalysisRun × Clustering}
variable (hsetting : setting.records = Record.directory records)
include hsetting

theorem continues_analysesOf (htold : x.1.Told) (h : analysesOf setting x = .ok (after, analyses)) :
    x.1.Continues after := by
  rcases analysesOf_cases h with ⟨-, he⟩ | ⟨-, haborted, hanalyses⟩
  · obtain ⟨rfl, rfl⟩ := Prod.mk.inj he
    exact .refl _
  · exact (concludes_analyzeClusters hsetting (htold.running haborted) List.length_nil
      (Nat.zero_add _) hanalyses).continues

theorem complete_iff_of_analysesOf (hrun : run.aborted = false) (hx : run.Continues x.1)
    (htold : x.1.Told) (h : analysesOf setting x = .ok (after, analyses)) :
    (after.aborted = false ↔ run.cancelled = false ∧
      ∀ i, run.calls.length ≤ i → after.RefusedAt i → i + 1 = after.calls.length ∧
        analyses ≠ [] ∧
        after.calls[i]? = some (report x.2.clusters.length x.2.clusters.length)) ∧
    (after.aborted = false → analyses.map (·.cluster) = x.2.clusters) := by
  rcases analysesOf_cases h with ⟨hnothing, he⟩ | ⟨hclusters, haborted, hanalyses⟩
  · obtain ⟨rfl, rfl⟩ := Prod.mk.inj he
    cases haborted : x.1.aborted with
    | true =>
      refine ⟨iff_of_false (by simp) fun ⟨hrunning, hlast⟩ => ?_, by simp⟩
      obtain ⟨i, hi, hrefused⟩ := hx.exists_refusedAt hrunning (hx.marked (by simp [hrun]) haborted)
      exact (hlast i hi hrefused).2.1 rfl
    | false =>
      have hcancelled := htold.running haborted
      refine ⟨iff_of_true rfl ⟨hx.running hcancelled, fun i hi hrefused => ?_⟩, fun _ => ?_⟩
      · exact absurd hrefused (hx.not_refusedAt hcancelled hi)
      · exact (hnothing.resolve_right (by simp [haborted])).symm
  · have hcancelled := htold.running haborted
    have hends := concludes_analyzeClusters hsetting hcancelled List.length_nil
      (Nat.zero_add _) hanalyses
    have hlast : Run.RefusedOnlyAt run after (report x.2.clusters.length x.2.clusters.length) ↔
        Run.RefusedOnlyAt x.1 after (report x.2.clusters.length x.2.clusters.length) :=
      Run.refusedOnlyAt_iff_of_running hx hcancelled hends.continues
    have hall (hafter : after.aborted = false) : analyses.map (·.cluster) = x.2.clusters :=
      (hends.clusters_eq hafter).trans (List.nil_append _)
    refine ⟨⟨fun hafter => ⟨hx.running hcancelled, fun i hi hrefused => ?_⟩, fun hall' => ?_⟩, hall⟩
    · obtain ⟨hlength, hreport⟩ := hlast.2 ((hends.complete_iff haborted).1 hafter) i hi hrefused
      refine ⟨hlength, fun hempty => hclusters ?_, hreport⟩
      rw [← hall hafter, hempty, List.map_nil]
    · refine (hends.complete_iff haborted).2 (hlast.1 fun i hi hrefused => ?_)
      obtain ⟨hlength, -, hreport⟩ := hall'.2 i hi hrefused
      exact ⟨hlength, hreport⟩

theorem agrees_analysesOf (htold : x.1.Told) (hfull : full.Undisturbed)
    (h : analysesOf setting x = .ok (after, analyses)) (hafter : after.aborted = false) :
    ∃ reached, analysesOf setting (full, x.2) = .ok (reached, analyses) := by
  rcases analysesOf_cases h with ⟨hnothing, he⟩ | ⟨hclusters, haborted, hanalyses⟩
  · obtain ⟨rfl, rfl⟩ := Prod.mk.inj he
    exact ⟨full, analysesOf_of_nothing (.inl (hnothing.resolve_right (by simp [hafter])))⟩
  · rw [analysesOf_of_going (x := (full, x.2)) hclusters hfull.complete]
    exact agrees_analyzeClusters hsetting hfull (htold.running haborted) List.length_nil
      (Nat.zero_add _) hanalyses hafter

theorem returns_analysesOf (htold : x.1.Told) (hfull : full.Undisturbed) {clustering : Clustering}
    (hx : x.1.aborted = false → x.2 = clustering)
    (h : analysesOf setting (full, clustering) = .ok (reached, whole)) :
    ∃ after analyses, analysesOf setting x = .ok (after, analyses) := by
  by_cases hnothing : x.2.clusters = [] ∨ x.1.aborted = true
  · exact ⟨_, _, analysesOf_of_nothing hnothing⟩
  · rw [not_or, Bool.not_eq_true] at hnothing
    obtain rfl := hx hnothing.2
    rw [analysesOf_of_going (x := (full, x.2)) hnothing.1 hfull.complete] at h
    rw [analysesOf_of_going hnothing.1 hnothing.2]
    exact returns_analyzeClusters hsetting hfull (htold.running hnothing.2) h

end Clusters

/-- The stages of an analysis that returns, with what each of them gives. -/
structure Stages (finder : CommunityFinder) (settings : Settings) (records : List Record)
    (run : AnalysisRun) (policy : Policy) (thresholds : Thresholds) (frequencies : Frequencies)
    (x : AnalysisRun × Clustering) (y : AnalysisRun × List ClusterAnalysis) : Prop where
  policy_eq : settings.session.check = .ok policy
  thresholds_eq : settings.detection.check = .ok thresholds
  frequencies_eq : Frequencies.ofRecords (analysed policy.mode records) = .ok frequencies
  clustering_eq : Clustering.ofPopulation finder policy records run = .ok x
  analyses_eq : analysesOf (settingOf settings policy.mode records frequencies) x = .ok y

section Stages

variable {finder : CommunityFinder} {settings : Settings} {result : Analysis}

theorem ofRecords_eq_ok_iff : ofRecords finder settings records run = .ok (after, result) ↔
    ∃ policy thresholds frequencies x y,
      Stages finder settings records run policy thresholds frequencies x y ∧
      y.1 = after ∧ resultOf settings thresholds frequencies x.2 y = result := by
  rw [ofRecords_eq]
  simp only [bind_eq_ok_iff, Except.ok.injEq, Prod.mk.injEq]
  constructor
  · intro h
    obtain ⟨policy, hpolicy, thresholds, hthresholds, frequencies, hfrequencies, x, hx, y, hy,
      hresult⟩ := h
    exact ⟨policy, thresholds, frequencies, x, y, ⟨hpolicy, hthresholds, hfrequencies, hx, hy⟩,
      hresult⟩
  · intro h
    obtain ⟨policy, thresholds, frequencies, x, y, hstages, hresult⟩ := h
    exact ⟨policy, hstages.policy_eq, thresholds, hstages.thresholds_eq, frequencies,
      hstages.frequencies_eq, x, hstages.clustering_eq, y, hstages.analyses_eq, hresult⟩

variable {policy : Policy} {thresholds : Thresholds} {frequencies : Frequencies}
variable {x : AnalysisRun × Clustering} {y : AnalysisRun × List ClusterAnalysis}

section

variable (h : Stages finder settings records run policy thresholds frequencies x y)
include h

theorem Stages.told : x.1.Told := Clustering.told_ofPopulation finder policy h.clustering_eq

theorem Stages.continues_clustered : run.Continues x.1 :=
  (Clustering.stoppable_ofPopulation finder policy records).continues h.clustering_eq

theorem Stages.continues_analysed : x.1.Continues y.1 :=
  continues_analysesOf rfl h.told h.analyses_eq

/-- A complete analysis is what an undisturbed run gives. -/
theorem Stages.agrees (hcomplete : y.1.aborted = false) (hfull : full.Undisturbed) : ∃ x' y',
    Stages finder settings records full policy thresholds frequencies x' y' ∧
      resultOf settings thresholds frequencies x'.2 y' =
        resultOf settings thresholds frequencies x.2 y := by
  have hstop := Clustering.stoppable_ofPopulation (α := ClusterAnalysis) finder policy records
  obtain ⟨mid, hmid⟩ :=
    hstop.agrees hfull h.clustering_eq (h.continues_analysed.not_aborted hcomplete)
  have hundisturbed := (hstop.continues hmid).undisturbed hfull
  obtain ⟨reached, hreached⟩ := agrees_analysesOf rfl h.told hundisturbed h.analyses_eq hcomplete
  have hstages : Stages finder settings records full policy thresholds frequencies (mid, x.2)
      (reached, y.2) := ⟨h.policy_eq, h.thresholds_eq, h.frequencies_eq, hmid, hreached⟩
  have hend := (hstages.continues_analysed.undisturbed hundisturbed).complete
  refine ⟨_, _, hstages, ?_⟩
  unfold resultOf
  rw [hend, hcomplete]

end

/-- A stop is no reason for an analysis to fail. -/
theorem Stages.returns (h : Stages finder settings records full policy thresholds frequencies x y)
    (hfull : full.Undisturbed) (run : AnalysisRun) :
    ∃ x' y', Stages finder settings records run policy thresholds frequencies x' y' := by
  have hstop := Clustering.stoppable_ofPopulation (α := ClusterAnalysis) finder policy records
  have hmid := (hstop.continues h.clustering_eq).undisturbed hfull
  obtain ⟨x', hx'⟩ : ∃ x', Clustering.ofPopulation finder policy records run = .ok x' := by
    obtain ⟨mid, found, hfound⟩ := hstop.returns hfull h.clustering_eq
    exact ⟨_, hfound⟩
  have hsame (hcomplete : x'.1.aborted = false) : x'.2 = x.2 := by
    obtain ⟨again, hagain⟩ := hstop.agrees hfull hx' hcomplete
    rw [h.clustering_eq] at hagain
    exact (congrArg Prod.snd (Except.ok.inj hagain)).symm
  have htold : x'.1.Told := Clustering.told_ofPopulation finder policy hx'
  obtain ⟨after, analyses, hanalysed⟩ := returns_analysesOf rfl htold hmid hsame h.analyses_eq
  exact ⟨x', (after, analyses), h.policy_eq, h.thresholds_eq, h.frequencies_eq, hx', hanalysed⟩

theorem statusName_eq_completed {aborted : Bool} :
    statusName aborted = "completed" ↔ aborted = false := by
  cases aborted <;> decide

end Stages

/-- An analysis is completed just when nothing was left out. Its status says so if and only if the
run was not cancelled beforehand and no call of it was refused, except possibly the last one of all,
the report after the last cluster. A completed analysis is that of a run that nothing disturbs, in
all of its parts, and every cluster has its entry. Whenever an undisturbed run returns, so does any
other. -/
theorem completed_analysis_is_complete (finder : CommunityFinder) (settings : Settings)
    (records : List Record) {run full : AnalysisRun} (hrun : run.aborted = false)
    (hfull : full.Undisturbed) :
    ((∃ reached whole, ofRecords finder settings records full = .ok (reached, whole)) →
      ∃ after a, ofRecords finder settings records run = .ok (after, a)) ∧
    ∀ after a, ofRecords finder settings records run = .ok (after, a) →
      (statusName a.aborted = "completed" ↔ run.cancelled = false ∧
        ∀ i, run.calls.length ≤ i → after.RefusedAt i →
          i + 1 = after.calls.length ∧ a.clusters ≠ [] ∧
          after.calls[i]? =
            some ⟨a.clustering.clusters.length, a.clustering.clusters.length, true⟩) ∧
      (statusName a.aborted = "completed" →
        (∃ reached, ofRecords finder settings records full = .ok (reached, a)) ∧
        a.clusters.map (·.cluster) = a.clustering.clusters) := by
  constructor
  · intro hreturns
    obtain ⟨reached, whole, h⟩ := hreturns
    obtain ⟨policy, thresholds, frequencies, x, y, hstages, -⟩ := ofRecords_eq_ok_iff.1 h
    obtain ⟨x', y', hrunStages⟩ := hstages.returns hfull run
    exact ⟨_, _, ofRecords_eq_ok_iff.2 ⟨_, _, _, x', y', hrunStages, rfl, rfl⟩⟩
  · intro after a h
    obtain ⟨policy, thresholds, frequencies, x, ⟨after, analyses⟩, hstages, rfl, rfl⟩ :=
      ofRecords_eq_ok_iff.1 h
    rw [statusName_eq_completed]
    obtain ⟨hiff, hclusters⟩ := complete_iff_of_analysesOf rfl hrun hstages.continues_clustered
      hstages.told hstages.analyses_eq
    refine ⟨?_, fun hcomplete => ⟨?_, hclusters hcomplete⟩⟩
    · rw [report, beq_self_eq_true] at hiff
      exact hiff
    · obtain ⟨x', y', hfullStages, hsame⟩ := hstages.agrees hcomplete hfull
      exact ⟨_, ofRecords_eq_ok_iff.2 ⟨_, _, _, x', y', hfullStages, rfl, hsame⟩⟩

/-- Users with the same roles are a cluster from two members on. -/
def exactSettings : Settings where
  session := { clusteringMethod := .str "exact", minMembers := .int 2 }
  runtime := { numWorkers := .int 1 }

/-- The reporter says no at the eleventh report, the one after the only cluster of two users. -/
def stoppedAtEnd : AnalysisRun :=
  { Run.unwatched with reporter := fun calls => calls.length < 11 }

theorem stop_after_last_cluster_is_late : ∃ (after reached : AnalysisRun) (a : Analysis),
    stoppedAtEnd.aborted = false ∧ (Run.unwatched : AnalysisRun).Undisturbed ∧
    ofRecords Community.best exactSettings Pattern.twoUsers stoppedAtEnd = .ok (after, a) ∧
    after.cancelled = true ∧ statusName a.aborted = "completed" ∧ a.clusters.length = 1 ∧
    ofRecords Community.best exactSettings Pattern.twoUsers Run.unwatched = .ok (reached, a) := by
  have hfull : (Run.unwatched : AnalysisRun).Undisturbed := Run.undisturbed_unwatched
  obtain ⟨-, hends⟩ := completed_analysis_is_complete Community.best exactSettings
    Pattern.twoUsers (show stoppedAtEnd.aborted = false from rfl) hfull
  have hresult : ((ofRecords Community.best exactSettings Pattern.twoUsers
      stoppedAtEnd).toOption.map fun x => (x.1.cancelled, x.2.aborted, x.2.clusters.length)) =
        some (true, false, 1) := by decide +kernel
  cases h : ofRecords Community.best exactSettings Pattern.twoUsers stoppedAtEnd with
  | error failure => simp [h, Except.toOption] at hresult
  | ok x =>
    rw [h] at hresult
    simp only [Except.toOption, Option.map_some, Option.some_inj, Prod.mk.injEq] at hresult
    obtain ⟨hcancelled, hcomplete, hlength⟩ := hresult
    have hstatus := statusName_eq_completed.2 hcomplete
    obtain ⟨⟨reached, hreached⟩, -⟩ := (hends x.1 x.2 h).2 hstatus
    exact ⟨x.1, reached, x.2, rfl, hfull, rfl, hcancelled, hstatus, hlength, hreached⟩

end RoleMining.Analysis
