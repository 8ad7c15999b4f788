import Mathlib.Data.List.Sigma
import RoleMining.Proofs.Cluster.Division
import RoleMining.Proofs.Pool.Workers

/-!
# An analysis with worker threads

An analysis counts, clusters, and then turns to its clusters, alone or with a pool of threads. The
clusters are numbered, so the pool tells them apart. On an undisturbed run the pool always comes to
something, and the analysis is then the one that the loop gives.
-/
namespace RoleMining

namespace Cluster

variable {mode : Mode} {chunks : List Chunk} {clusters : List Cluster}

theorem nodup_id_number (mode : Mode) (drafts : List Draft) :
    ((number mode drafts).map (·.id)).Nodup := by
  have hids : (number mode drafts).map (·.id) = (drafts.zipIdx.map Prod.snd).map (· + 1) := by
    rw [number, List.map_map, List.map_map]
    rfl
  rw [hids]
  exact (List.nodup_zipIdx_map_snd drafts).map (add_left_injective 1)

theorem nodup_id_of_assemble {similarities : Similarities} {groups : List (List ℕ)}
    (h : assemble mode chunks similarities groups = .ok clusters) :
    (clusters.map (·.id)).Nodup := by
  obtain ⟨drafts, -, h⟩ := bind_eq_ok_iff.1 h
  obtain rfl := Except.ok.inj h
  exact nodup_id_number mode _

end Cluster

/-- No two clusters have one number. -/
theorem Clustering.nodup_id {α : Type} {finder : CommunityFinder} {policy : Policy}
    {records : List Record} {run after : Run α} {clustering : Clustering}
    (h : ofPopulation finder policy records run = .ok (after, clustering)) :
    (clustering.clusters.map (·.id)).Nodup := by
  rcases made_ofPopulation finder policy records run after clustering h with
    ⟨hnone, -⟩ | ⟨made, large, joined, clusters, hsteps, he⟩
  · rw [hnone]
    exact List.nodup_nil
  · rw [he]
    exact Cluster.nodup_id_of_assemble hsteps.clusters_eq

namespace Analysis

variable {setting : Setting} {workers : Number} {clusters : List Cluster} {run : AnalysisRun}

theorem undisturbed_of_analyzeClusters (hrun : run.Undisturbed) {total done : ℕ}
    {after : AnalysisRun} {finished analyses : List ClusterAnalysis}
    (h : analyzeClusters setting total done run finished clusters = .ok (after, analyses)) :
    after.Undisturbed := by
  rcases analyzeClusters_of_undisturbed setting clusters hrun total done finished with
    ⟨whole, last, -, hloop, hlast⟩ | ⟨e, -, hfails⟩
  · obtain ⟨rfl, -⟩ := Prod.mk.inj (Except.ok.inj (h.symm.trans hloop))
    exact hlast
  · cases h.symm.trans hfails

/-! ### Before and after the clusters -/

/-- Of the run a result tells only whether it was aborted. -/
theorem resultOf_eq_of_aborted {settings : Settings} {thresholds : Thresholds}
    {frequencies : Frequencies} {clustering : Clustering} {last last' : AnalysisRun}
    {analyses : List ClusterAnalysis} (h : last.aborted = last'.aborted) :
    resultOf settings thresholds frequencies clustering (last, analyses) =
      resultOf settings thresholds frequencies clustering (last', analyses) := by
  unfold resultOf
  rw [h]

/-- What an analysis has made when it turns to its clusters. -/
structure Begun where
  thresholds : Thresholds
  setting : Setting
  run : AnalysisRun
  clustering : Clustering

def begin (finder : CommunityFinder) (settings : Settings) (records : List Record)
    (run : AnalysisRun) : Except Failure Begun := do
  let policy ← settings.session.check
  let thresholds ← settings.detection.check
  let frequencies ← Frequencies.ofRecords (analysed policy.mode records)
  let (run, clustering) ← Clustering.ofPopulation finder policy records run
  return { thresholds, setting := settingOf settings policy.mode records frequencies, run,
           clustering }

namespace Begun

variable (b : Begun)

/-- The result of the analysis, from that of its clusters. -/
def finish (settings : Settings) (y : Except Failure (AnalysisRun × List ClusterAnalysis)) :
    Except Failure (AnalysisRun × Analysis) :=
  y.map fun y => (y.1, resultOf settings b.thresholds b.setting.frequencies b.clustering y)

/-- What so many workers may make of the clusters; they are not begun after a stop. -/
def MayGive (workers : Number) (y : Except Failure (AnalysisRun × List ClusterAnalysis)) : Prop :=
  if b.clustering.clusters.isEmpty || b.run.aborted then y = .ok (b.run, [])
  else Analysis.MayGive b.setting workers b.clustering.clusters b.run y

end Begun

/-- What an analysis with so many workers may come to. -/
def MayReturn (finder : CommunityFinder) (settings : Settings) (workers : Number)
    (records : List Record) (run : AnalysisRun)
    (result : Except Failure (AnalysisRun × Analysis)) : Prop :=
  match begin finder settings records run with
  | .ok b => ∃ y, b.MayGive workers y ∧ result = b.finish settings y
  | .error e => result = .error e

variable {finder : CommunityFinder} {settings : Settings} {records : List Record} {b : Begun}
variable {after full : AnalysisRun} {a : Analysis}
variable {result : Except Failure (AnalysisRun × Analysis)}

theorem ofRecords_eq_begin (finder : CommunityFinder) (settings : Settings) (records : List Record)
    (run : AnalysisRun) : ofRecords finder settings records run =
      begin finder settings records run >>= fun b =>
        b.finish settings (analysesOf b.setting (b.run, b.clustering)) := by
  rw [ofRecords_eq]
  unfold begin
  simp only [bind_assoc]
  refine bind_congr fun policy => bind_congr fun thresholds => bind_congr fun frequencies =>
    bind_congr fun x => ?_
  rw [pure_bind]
  unfold Begun.finish
  cases analysesOf (settingOf settings policy.mode records frequencies) x <;> rfl

/-- Without a pool the analysis comes to what the loop gives, and to nothing else. -/
theorem mayReturn_iff_of_not_below (hworkers : (1 : Number).below workers = false) :
    MayReturn finder settings workers records run result ↔
      result = ofRecords finder settings records run := by
  rw [ofRecords_eq_begin]
  unfold MayReturn
  cases begin finder settings records run with
  | error e => rfl
  | ok b =>
    have honly (y : Except Failure (AnalysisRun × List ClusterAnalysis)) :
        b.MayGive workers y ↔ y = analysesOf b.setting (b.run, b.clustering) := by
      unfold Begun.MayGive analysesOf Analysis.MayGive
      simp only [hworkers, Bool.false_eq_true, false_and, if_false]
      split <;> rfl
    simp only [honly, exists_eq_left]
    rfl

/-- An analysis turns to its clusters when its settings hold, and its records are counted and
clustered. -/
theorem begin_eq_ok_iff : begin finder settings records run = .ok b ↔
    ∃ policy thresholds frequencies x, settings.session.check = .ok policy ∧
      settings.detection.check = .ok thresholds ∧
      Frequencies.ofRecords (analysed policy.mode records) = .ok frequencies ∧
      Clustering.ofPopulation finder policy records run = .ok x ∧
      b = ⟨thresholds, settingOf settings policy.mode records frequencies, x.1, x.2⟩ := by
  unfold begin
  simp only [bind_eq_ok_iff]
  constructor
  · intro h
    obtain ⟨policy, hpolicy, thresholds, hthresholds, frequencies, hfrequencies, x, hx, h⟩ := h
    exact ⟨policy, thresholds, frequencies, x, hpolicy, hthresholds, hfrequencies, hx,
      (Except.ok.inj h).symm⟩
  · intro h
    obtain ⟨policy, thresholds, frequencies, x, hpolicy, hthresholds, hfrequencies, hx, rfl⟩ := h
    exact ⟨policy, hpolicy, thresholds, hthresholds, frequencies, hfrequencies, x, hx, rfl⟩

theorem clustering_of_begin (h : begin finder settings records run = .ok b) : ∃ policy,
    Clustering.ofPopulation finder policy records run = .ok (b.run, b.clustering) := by
  obtain ⟨policy, thresholds, frequencies, x, -, -, -, hx, rfl⟩ := begin_eq_ok_iff.1 h
  exact ⟨policy, hx⟩

/-- What is begun without a mark is begun in the same way when nothing stops it. -/
theorem exists_begin (hfull : full.Undisturbed) (h : begin finder settings records run = .ok b)
    (hcomplete : b.run.aborted = false) :
    ∃ reached, begin finder settings records full = .ok { b with run := reached } := by
  obtain ⟨policy, thresholds, frequencies, x, hpolicy, hthresholds, hfrequencies, hx, rfl⟩ :=
    begin_eq_ok_iff.1 h
  obtain ⟨reached, hreached⟩ :=
    (Clustering.stoppable_ofPopulation finder policy records).agrees hfull hx hcomplete
  exact ⟨reached, begin_eq_ok_iff.2 ⟨policy, thresholds, frequencies, (reached, x.2), hpolicy,
    hthresholds, hfrequencies, hreached, rfl⟩⟩

/-- What is begun undisturbed is still so, and no two of its clusters have one number. -/
theorem undisturbed_of_begin (hrun : run.Undisturbed)
    (h : begin finder settings records run = .ok b) :
    b.run.Undisturbed ∧ (b.clustering.clusters.map (·.id)).Nodup := by
  obtain ⟨policy, hclustering⟩ := clustering_of_begin h
  have hcontinues := (Clustering.stoppable_ofPopulation finder policy records).continues hclustering
  exact ⟨hcontinues.undisturbed hrun, Clustering.nodup_id hclustering⟩

theorem exists_mayReturn (finder : CommunityFinder) (settings : Settings) (workers : Number)
    (records : List Record) (run : AnalysisRun) :
    ∃ result, MayReturn finder settings workers records run result := by
  unfold MayReturn
  cases hbegin : begin finder settings records run with
  | error e => exact ⟨_, rfl⟩
  | ok b =>
    obtain ⟨policy, hclustering⟩ := clustering_of_begin hbegin
    have hsome : ∃ y, b.MayGive workers y := by
      unfold Begun.MayGive
      split
      next => exact ⟨_, rfl⟩
      next => exact exists_mayGive (Clustering.nodup_id hclustering) b.setting workers b.run
    obtain ⟨y, hy⟩ := hsome
    exact ⟨_, y, hy, rfl⟩

/-- Unless the run is marked, the analyses of the clusters are those of any undisturbed run. -/
theorem Begun.exists_analysesOf (hb : begin finder settings records run = .ok b)
    {analyses : List ClusterAnalysis} (h : b.MayGive workers (.ok (after, analyses)))
    (hcomplete : after.aborted = false) :
    b.run.aborted = false ∧ ∀ full : AnalysisRun, full.Undisturbed → ∃ last,
      analysesOf b.setting (full, b.clustering) = .ok (last, analyses) ∧ last.aborted = false := by
  obtain ⟨policy, thresholds, frequencies, x, -, -, -, hx, rfl⟩ := begin_eq_ok_iff.1 hb
  have hids : (x.2.clusters.map (·.id)).Nodup := Clustering.nodup_id hx
  unfold Begun.MayGive at h
  split at h
  next hnothing =>
    obtain ⟨rfl, rfl⟩ := Prod.mk.inj (Except.ok.inj h)
    have hnone : x.2.clusters = [] := by
      have hrunning : x.1.aborted = false := hcomplete
      simpa [hrunning] using hnothing
    exact ⟨hcomplete, fun full hfull => ⟨full, analysesOf_of_nothing (.inl hnone), hfull.complete⟩⟩
  next hsome =>
    rw [Bool.or_eq_true, not_or, Bool.not_eq_true, Bool.not_eq_true] at hsome
    refine ⟨hsome.2, fun full hfull => ?_⟩
    obtain ⟨last, hlast⟩ := exists_analyzeClusters_of_mayGive rfl hfull hids h hcomplete
    refine ⟨last, ?_, (undisturbed_of_analyzeClusters hfull hlast).complete⟩
    exact (analysesOf_of_going (by simpa using hsome.1) hfull.complete).trans hlast

/-- Unless the run is marked, the analysis is the one that the loop gives when nothing stops it,
however many workers there are. -/
theorem exists_ofRecords_of_mayReturn (hfull : full.Undisturbed)
    (h : MayReturn finder settings workers records run (.ok (after, a)))
    (hcomplete : a.aborted = false) :
    ∃ reached, ofRecords finder settings records full = .ok (reached, a) := by
  unfold MayReturn at h
  cases hbegin : begin finder settings records run with
  | error e =>
    rw [hbegin] at h
    cases h
  | ok b =>
    rw [hbegin] at h
    obtain ⟨y, hy, hresult⟩ := h
    cases y with
    | error e => cases hresult
    | ok y =>
      obtain ⟨rfl, rfl⟩ := Prod.mk.inj (Except.ok.inj hresult)
      obtain ⟨hbegun, hanalyses⟩ := Begun.exists_analysesOf hbegin hy hcomplete
      obtain ⟨mid, hmid⟩ := exists_begin hfull hbegin hbegun
      obtain ⟨last, hlast, hundisturbed⟩ := hanalyses mid (undisturbed_of_begin hfull hmid).1
      refine ⟨last, ?_⟩
      rw [ofRecords_eq_begin, hmid]
      change Begun.finish _ settings (analysesOf b.setting (mid, b.clustering)) = _
      rw [hlast]
      refine congrArg Except.ok (Prod.ext rfl ?_)
      exact resultOf_eq_of_aborted (hundisturbed.trans hcomplete.symm)

/-- On an undisturbed run the analysis is the one that the loop gives, however many workers there
are. -/
theorem eq_of_mayReturn (hrun : run.Undisturbed)
    (h : MayReturn finder settings workers records run result)
    (hloop : ofRecords finder settings records run = .ok (after, a)) :
    ∃ after', result = .ok (after', a) := by
  rw [ofRecords_eq_begin] at hloop
  obtain ⟨b, hbegin, hloop⟩ := bind_eq_ok_iff.1 hloop
  unfold MayReturn at h
  rw [hbegin] at h
  obtain ⟨y, hy, rfl⟩ := h
  obtain ⟨hclustered, hids⟩ := undisturbed_of_begin hrun hbegin
  unfold Begun.MayGive at hy
  unfold analysesOf at hloop
  split at hy
  next hnothing =>
    rw [if_pos hnothing] at hloop
    obtain ⟨rfl, rfl⟩ := Prod.mk.inj (Except.ok.inj hloop)
    exact ⟨_, by rw [hy]; rfl⟩
  next hsome =>
    rw [if_neg hsome] at hloop
    rcases agrees_of_mayGive hids hclustered hy with
      ⟨last, last', analyses, hanalyses, rfl, -, haborted⟩ | ⟨e, e', hfails, -⟩
    · have hlast := (undisturbed_of_analyzeClusters hclustered hanalyses).complete
      rw [hanalyses] at hloop
      obtain ⟨rfl, rfl⟩ := Prod.mk.inj (Except.ok.inj hloop)
      refine ⟨last', congrArg Except.ok (Prod.ext rfl ?_)⟩
      exact resultOf_eq_of_aborted (haborted.trans hlast.symm)
    · rw [hfails] at hloop
      cases hloop

end Analysis
end RoleMining
