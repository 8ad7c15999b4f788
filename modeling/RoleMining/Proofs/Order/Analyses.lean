import RoleMining.Proofs.Order.Frequencies
import RoleMining.Proofs.Pool.Pipeline

/-!
# Analyses of records in another order

The records and weights of members are looked up by their identities, so settings that find the same
lead to the same analyses, step by step, also in a pool of threads. Records in another order are
chunked and counted as before, and they are found as before.
-/
namespace RoleMining

theorem Mined.chunksOf_congr {weights weights' : Ledger String ℤ}
    (h : weights.find? = weights'.find?) (mode : Mode) (members : List Record) :
    chunksOf mode weights members = chunksOf mode weights' members := by
  cases mode with
  | user => rfl
  | role =>
    unfold chunksOf invertWeighted
    rw [h]

namespace Analysis

/-- Two settings in which the same is found. -/
structure Setting.Alike (setting setting' : Setting) : Prop where
  detection_eq : setting.detection = setting'.detection
  records_eq : setting.records.find? = setting'.records.find?
  frequencies_eq : setting.frequencies = setting'.frequencies
  weights_eq : setting.weights.find? = setting'.weights.find?

variable {setting setting' : Setting} {workers : Number} {clusters : List Cluster}
variable {run : AnalysisRun}

namespace Setting.Alike

theorem symm (h : setting.Alike setting') : setting'.Alike setting :=
  ⟨h.detection_eq.symm, h.records_eq.symm, h.frequencies_eq.symm, h.weights_eq.symm⟩

variable (h : setting.Alike setting')
include h

theorem clusterWork_eq (c : Cluster) : clusterWork setting c = clusterWork setting' c := by
  unfold clusterWork Mined.work Mined.membersOf
  rw [h.detection_eq, h.records_eq, h.frequencies_eq]
  simp only [Mined.chunksOf_congr h.weights_eq]

theorem analyzeCluster_eq (c : Cluster) : analyzeCluster setting c = analyzeCluster setting' c := by
  funext run
  rw [← perform_clusterWork, ← perform_clusterWork, h.clusterWork_eq]

theorem analyzeClusters_eq (total done : ℕ) (run : AnalysisRun) (finished : List ClusterAnalysis)
    (clusters : List Cluster) : analyzeClusters setting total done run finished clusters =
      analyzeClusters setting' total done run finished clusters := by
  induction clusters generalizing done run finished with
  | nil => rfl
  | cons c clusters ih =>
    unfold analyzeClusters
    simp only [h.analyzeCluster_eq, ih]

theorem step {s s' : Pool clusters} (hstep : Pool.Step setting workers s s') :
    Pool.Step setting' workers s s' := by
  cases hstep with
  | start hwaiting hfirst hidle => exact .start hwaiting hfirst hidle
  | act htask =>
    rw [h.clusterWork_eq] at htask
    exact .act htask
  | take hmain hnew htask => exact .take hmain hnew htask
  | raise hmain hnew htask => exact .raise hmain hnew htask
  | report hmain => exact .report hmain
  | cancel hmain => exact .cancel hmain
  | goOn hmain hrun => exact .goOn hmain hrun
  | stop hmain hrun => exact .stop hmain hrun
  | drop hmain htask => exact .drop hmain htask
  | pass hmain htask => exact .pass hmain htask
  | settle hmain => exact .settle hmain
  | close hmain hsettled => exact .close hmain hsettled
  | finish hmain hall => exact .finish hmain hall
  | fail hmain hsettled => exact .fail hmain hsettled

theorem reached {s : Pool clusters} (hs : s.Reached setting workers run) :
    s.Reached setting' workers run :=
  Relation.ReflTransGen.mono (fun _ _ => h.step) _ _ hs

theorem mayGive_iff {result : Except Failure (AnalysisRun × List ClusterAnalysis)} :
    MayGive setting workers clusters run result ↔ MayGive setting' workers clusters run result := by
  unfold MayGive
  rw [h.analyzeClusters_eq]
  have hreached (s : Pool clusters) :
      s.Reached setting workers run ↔ s.Reached setting' workers run :=
    ⟨h.reached, h.symm.reached⟩
  simp only [hreached]

end Setting.Alike

theorem Setting.Alike.analysesOf_eq (h : setting.Alike setting')
    (x : AnalysisRun × Clustering) : analysesOf setting x = analysesOf setting' x := by
  unfold analysesOf
  rw [h.analyzeClusters_eq]

/-- Two analyses have made the same when they turn to their clusters, and find the same. -/
structure Begun.Alike (b b' : Begun) : Prop where
  thresholds_eq : b.thresholds = b'.thresholds
  setting : b.setting.Alike b'.setting
  run_eq : b.run = b'.run
  clustering_eq : b.clustering = b'.clustering

namespace Begun.Alike

variable {b b' : Begun} (h : b.Alike b')
include h

theorem finish_eq (settings : Settings)
    (y : Except Failure (AnalysisRun × List ClusterAnalysis)) :
    b.finish settings y = b'.finish settings y := by
  unfold finish
  rw [h.thresholds_eq, h.setting.frequencies_eq, h.clustering_eq]

theorem mayGive_iff {y : Except Failure (AnalysisRun × List ClusterAnalysis)} :
    b.MayGive workers y ↔ b'.MayGive workers y := by
  unfold Begun.MayGive
  rw [h.run_eq, h.clustering_eq, h.setting.mayGive_iff]

end Begun.Alike

/-! ### The stages before the clusters -/

section Stages

variable {records records' : List Record} (h : records.Perm records')
include h

theorem frequencies_eq_of_perm (mode : Mode) (hweight : weightOf records < 2 ^ 53) :
    Frequencies.ofRecords (analysed mode records) =
      Frequencies.ofRecords (analysed mode records') := by
  cases mode with
  | user => exact Frequencies.ofRecords_eq_of_perm h hweight
  | role => exact congrArg Frequencies.ofRecords (invert_eq_of_perm h)

theorem ofPopulation_eq_of_perm (finder : CommunityFinder) (policy : Policy) :
    Clustering.ofPopulation finder policy records run =
      Clustering.ofPopulation finder policy records' run := by
  rw [Clustering.ofPopulation_eq, Clustering.ofPopulation_eq, Clustering.chunksFor_eq_of_perm h]

variable (hoids : (records.map (·.oid)).Nodup)
include hoids

theorem settingOf_alike_of_perm (settings : Settings) (mode : Mode) (frequencies : Frequencies) :
    (settingOf settings mode records frequencies).Alike
      (settingOf settings mode records' frequencies) where
  detection_eq := rfl
  records_eq := Record.find?_directory_of_perm (analysed_perm h mode)
    (nodup_oid_analysed fun _ => hoids)
  frequencies_eq := rfl
  weights_eq := find?_weightMap_of_perm h hoids

variable (hweight : weightOf records < 2 ^ 53)
include hweight

theorem begin_alike (finder : CommunityFinder) (settings : Settings) (run : AnalysisRun) :
    (∃ e, begin finder settings records run = .error e ∧
      begin finder settings records' run = .error e) ∨
    ∃ b b', begin finder settings records run = .ok b ∧
      begin finder settings records' run = .ok b' ∧ b.Alike b' := by
  unfold begin
  cases settings.session.check with
  | error e => exact .inl ⟨e, rfl, rfl⟩
  | ok policy =>
    cases settings.detection.check with
    | error e => exact .inl ⟨e, rfl, rfl⟩
    | ok thresholds =>
      simp only [bind, Except.bind, ← frequencies_eq_of_perm h policy.mode hweight,
        ← ofPopulation_eq_of_perm h finder policy]
      cases Frequencies.ofRecords (analysed policy.mode records) with
      | error e => exact .inl ⟨e, rfl, rfl⟩
      | ok frequencies =>
        cases Clustering.ofPopulation finder policy records run with
        | error e => exact .inl ⟨e, rfl, rfl⟩
        | ok x =>
          exact .inr ⟨_, _, rfl, rfl, rfl,
            settingOf_alike_of_perm h hoids settings policy.mode frequencies, rfl, rfl⟩

/-- The loop gives the same, and does the same to the run. -/
theorem ofRecords_eq_of_perm (finder : CommunityFinder) (settings : Settings)
    (run : AnalysisRun) :
    ofRecords finder settings records run = ofRecords finder settings records' run := by
  rw [ofRecords_eq_begin, ofRecords_eq_begin]
  rcases begin_alike h hoids hweight finder settings run with
    ⟨e, hbegin, hbegin'⟩ | ⟨b, b', hbegin, hbegin', halike⟩
  · rw [hbegin, hbegin']
  · rw [hbegin, hbegin']
    change b.finish settings _ = b'.finish settings _
    rw [halike.finish_eq, halike.setting.analysesOf_eq, halike.run_eq, halike.clustering_eq]

theorem mayReturn_iff_of_perm (finder : CommunityFinder) (settings : Settings) (workers : Number)
    (run : AnalysisRun) (result : Except Failure (AnalysisRun × Analysis)) :
    MayReturn finder settings workers records run result ↔
      MayReturn finder settings workers records' run result := by
  unfold MayReturn
  rcases begin_alike h hoids hweight finder settings run with
    ⟨e, hbegin, hbegin'⟩ | ⟨b, b', hbegin, hbegin', halike⟩
  · rw [hbegin, hbegin']
  · rw [hbegin, hbegin']
    simp only [halike.mayGive_iff, halike.finish_eq]

end Stages

end Analysis
end RoleMining
