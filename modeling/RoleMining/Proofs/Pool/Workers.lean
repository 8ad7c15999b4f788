import RoleMining.Proofs.Pool.Progress
import RoleMining.Proofs.Pool.Stops
import RoleMining.Proofs.Pool.Unmarked

/-!
# Worker threads change nothing

With one worker, or one cluster, the loop goes through the clusters; otherwise a pool of threads
does the work. What the pool comes to is told by its invariants at the end: unless a stop is asked
for, it is what the loop comes to, and after a stop it is what the clusters have been given so far.
-/
namespace RoleMining.Analysis

variable {setting : Setting} {workers : Number} {clusters : List Cluster} {run : AnalysisRun}

namespace Pool

variable {s : Pool clusters} {result : Except Failure (AnalysisRun × List ClusterAnalysis)}

theorem result?_eq_some (h : s.result? = some result) :
    (∃ analyses, s.main = .returned analyses ∧ result = .ok (s.run, analyses)) ∨
      ∃ e, s.main = .failed e ∧ result = .error e := by
  unfold result? at h
  split at h
  next analyses hmain => exact .inl ⟨analyses, hmain, (Option.some_inj.1 h).symm⟩
  next e hmain => exact .inr ⟨e, hmain, (Option.some_inj.1 h).symm⟩
  next => cases h

end Pool

/-- What analysing clusters with so many workers may come to. -/
def MayGive (setting : Setting) (workers : Number) (clusters : List Cluster) (run : AnalysisRun)
    (result : Except Failure (AnalysisRun × List ClusterAnalysis)) : Prop :=
  if (1 : Number).below workers = true ∧ 1 < clusters.length then
    ∃ s : Pool clusters, s.Reached setting workers run ∧ s.result? = some result
  else result = analyzeClusters setting clusters.length 0 run [] clusters

/-- Some order of steps leads to an end. -/
theorem Pool.exists_result (setting : Setting) (hids : (clusters.map (·.id)).Nodup)
    (hworkers : (0 : Number).below workers = true) (run : AnalysisRun) :
    ∃ (s : Pool clusters) (result : Except Failure (AnalysisRun × List ClusterAnalysis)),
      s.Reached setting workers run ∧ s.result? = some result := by
  suffices hfrom : ∀ s : Pool clusters, s.Reached setting workers run →
      ∃ (last : Pool clusters) (result : Except Failure (AnalysisRun × List ClusterAnalysis)),
        last.Reached setting workers run ∧ last.result? = some result from hfrom _ .refl
  intro s
  have hends : WellFounded fun s' s : Pool clusters => Step setting workers s s' :=
    wellFounded_step
  -- the induction is on the steps that are left, and soundness is what lets someone go next
  induction s using hends.induction with
  | _ s ih =>
    intro hs
    have hsound := sound_of_reached hids (fun i => all_clusterWork setting (clusters.get i)) hs
    rcases hsound.exists_step hworkers with ⟨result, hresult⟩ | ⟨next, hstep⟩
    · exact ⟨s, result, hs, hresult⟩
    · exact ih next hstep (hs.tail hstep)

theorem exists_mayGive (hids : (clusters.map (·.id)).Nodup) (setting : Setting) (workers : Number)
    (run : AnalysisRun) : ∃ result, MayGive setting workers clusters run result := by
  unfold MayGive
  split
  next hpool =>
    obtain ⟨s, result, hs, hresult⟩ := Pool.exists_result setting hids
      (Number.below_of_lt (by decide) hpool.1) run
    exact ⟨result, s, hs, hresult⟩
  next => exact ⟨_, rfl⟩

/-- An undisturbed pool comes to what the loop comes to. -/
theorem agrees_of_mayGive (hids : (clusters.map (·.id)).Nodup) (hrun : run.Undisturbed)
    {result : Except Failure (AnalysisRun × List ClusterAnalysis)}
    (h : MayGive setting workers clusters run result) :
    (∃ after after' analyses,
      analyzeClusters setting clusters.length 0 run [] clusters = .ok (after, analyses) ∧
      result = .ok (after', analyses) ∧ after'.results.Perm (run.results ++ analyses) ∧
      after'.aborted = false) ∨
    ∃ e e', analyzeClusters setting clusters.length 0 run [] clusters = .error e ∧
      result = .error e' := by
  have hends := analyzeClusters_of_undisturbed setting clusters hrun clusters.length 0 []
  unfold MayGive at h
  split at h
  next =>
    obtain ⟨s, hs, hresult⟩ := h
    have hsound := Pool.sound_of_reached hids (fun i => all_clusterWork setting (clusters.get i)) hs
    have hcalm := Pool.calm_of_reached hrun hs
    rcases Pool.result?_eq_some hresult with ⟨found, hmain, rfl⟩ | ⟨e', hmain, rfl⟩
    · obtain ⟨hfound, hsink⟩ := hcalm.returned hids hsound hmain
      rcases hends with ⟨analyses, after, hall, hloop, -⟩ | ⟨e, hfails, -⟩
      · obtain rfl := Except.ok.inj (hall.symm.trans hfound)
        exact .inl ⟨after, s.run, analyses, hloop, rfl, hsink, hcalm.undisturbed.complete⟩
      · cases hfails.symm.trans hfound
    · obtain ⟨c, hc, hfails⟩ := hcalm.exists_of_failed hsound hmain
      rcases hends with ⟨analyses, after, hall, -, -⟩ | ⟨e, -, hloop⟩
      · obtain ⟨a, -, ha⟩ := exists_of_mem_of_mapM_eq_ok hall hc
        cases hfails.symm.trans ha
      · exact .inr ⟨e, e', hloop, rfl⟩
  next =>
    subst h
    rcases hends with ⟨analyses, after, -, hloop, hafter⟩ | ⟨e, -, hloop⟩
    · obtain ⟨added, hadded, -, hsink, -⟩ :=
        exists_of_analyzeClusters List.length_nil (Nat.zero_add _) hloop
      obtain rfl : analyses = added := hadded
      exact .inl ⟨after, after, analyses, hloop, hloop, .of_eq hsink, hafter.complete⟩
    · exact .inr ⟨e, e, hloop, hloop⟩

/-- Whatever stops it, the pool returns analyses of clusters in their order, and all of them are
collected; when a cluster has none, the run is marked as aborted. -/
theorem kept_of_mayGive (hids : (clusters.map (·.id)).Nodup) {after : AnalysisRun}
    {analyses : List ClusterAnalysis}
    (h : MayGive setting workers clusters run (.ok (after, analyses))) :
    (analyses.map (·.cluster)).Sublist clusters ∧ (∀ a ∈ analyses, a ∈ after.results) ∧
      ((∃ c ∈ clusters, c ∉ analyses.map (·.cluster)) → after.aborted = true) := by
  unfold MayGive at h
  split at h
  next =>
    obtain ⟨s, hs, hresult⟩ := h
    have hsound := Pool.sound_of_reached hids (fun i => all_clusterWork setting (clusters.get i)) hs
    rcases Pool.result?_eq_some hresult with ⟨found, hmain, he⟩ | ⟨e, -, he⟩
    · obtain ⟨rfl, rfl⟩ := Prod.mk.inj (Except.ok.inj he)
      exact hsound.returned hids (fun i a ha => ha a rfl) hmain
    · cases he
  next =>
    obtain ⟨added, rfl, hinitial, hsink, hmissing⟩ :=
      exists_of_analyzeClusters List.length_nil (Nat.zero_add _) h.symm
    refine ⟨hinitial.sublist, fun a ha => ?_, fun hgap => hmissing ?_⟩
    · rw [hsink]
      exact List.mem_append_right _ ha
    · obtain ⟨c, hc, hgap⟩ := hgap
      -- a first part as long as the list would be all of it
      by_contra hlength
      have hall := hinitial.eq_of_length_le (by simpa using hlength)
      exact hgap (hall.symm ▸ hc)

/-- If the loop returns on an undisturbed run, so does the analysis of each cluster. -/
theorem exists_analyzeCluster {full reached : AnalysisRun} {whole : List ClusterAnalysis}
    (hfull : full.Undisturbed)
    (h : analyzeClusters setting clusters.length 0 full [] clusters = .ok (reached, whole))
    {c : Cluster} (hc : c ∈ clusters) :
    ∃ mid a, analyzeCluster setting c full = .ok (mid, a) := by
  rcases analyzeClusters_of_undisturbed setting clusters hfull clusters.length 0 [] with
    ⟨analyses, after, hall, -, -⟩ | ⟨e, -, hloop⟩
  · obtain ⟨a, -, ha⟩ := exists_of_mem_of_mapM_eq_ok hall hc
    obtain ⟨mid, x, -, rfl, hperform⟩ :=
      (calm_expected setting full.pollEvery c).exists_perform_eq hfull
    rw [perform_clusterWork, ha] at hperform
    exact ⟨mid, a, hperform⟩
  · cases hloop.symm.trans h

section Unmarked

variable {records : List Record} (hsetting : setting.records = Record.directory records)
variable {full : AnalysisRun} (hfull : full.Undisturbed)
include hsetting hfull

/-- How often a run is polled has no part in what an analysis comes to. -/
theorem expected_eq_ok {c : Cluster} {a : ClusterAnalysis}
    (h : expected setting run.pollEvery c = .ok a) : expected setting full.pollEvery c = .ok a := by
  let quiet : AnalysisRun := { pollEvery := run.pollEvery, pollEvery_pos := run.pollEvery_pos }
  have hquiet : quiet.Undisturbed := ⟨⟨rfl, fun _ => rfl⟩, rfl⟩
  have hanalysis : expected setting quiet.pollEvery c = .ok a := h
  obtain ⟨mid, x, hmid, rfl, hperform⟩ :=
    (calm_expected setting quiet.pollEvery c).exists_perform_eq hquiet
  rw [hanalysis, perform_clusterWork] at hperform
  obtain ⟨reached, hreached⟩ :=
    (stoppable_analyzeCluster hsetting c).agrees hfull hperform hmid.complete
  obtain ⟨mid', x', -, rfl, hperform'⟩ :=
    (calm_expected setting full.pollEvery c).exists_perform_eq hfull
  rw [perform_clusterWork, hreached] at hperform'
  cases hof : expected setting full.pollEvery c with
  | error e =>
    rw [hof] at hperform'
    cases hperform'
  | ok b =>
    rw [hof] at hperform'
    rw [(Prod.mk.inj (Except.ok.inj hperform')).2]

/-- Unless the run is marked, whatever is given is what the loop gives when nothing stops it. -/
theorem exists_analyzeClusters_of_mayGive (hids : (clusters.map (·.id)).Nodup)
    {after : AnalysisRun} {analyses : List ClusterAnalysis}
    (h : MayGive setting workers clusters run (.ok (after, analyses)))
    (hcomplete : after.aborted = false) : ∃ reached,
      analyzeClusters setting clusters.length 0 full [] clusters = .ok (reached, analyses) := by
  unfold MayGive at h
  split at h
  next =>
    obtain ⟨s, hs, hresult⟩ := h
    have hsound := Pool.sound_of_reached hids (fun i => all_clusterWork setting (clusters.get i)) hs
    rcases Pool.result?_eq_some hresult with ⟨found, hmain, he⟩ | ⟨e, -, he⟩
    · obtain ⟨rfl, rfl⟩ := Prod.mk.inj (Except.ok.inj he)
      have hall := (Pool.faithful_of_reached hs).returned hids hsound hmain hcomplete
      have hfound : clusters.mapM (expected setting full.pollEvery) = .ok analyses :=
        mapM_eq_ok_iff.2 ((mapM_eq_ok_iff.1 hall).imp fun _ _ => expected_eq_ok hsetting hfull)
      rcases analyzeClusters_of_undisturbed setting clusters hfull clusters.length 0 [] with
        ⟨whole, reached, hwhole, hloop, -⟩ | ⟨e, hfails, -⟩
      · obtain rfl := Except.ok.inj (hfound.symm.trans hwhole)
        exact ⟨reached, hloop⟩
      · cases hfound.symm.trans hfails
    · cases he
  next =>
    cases hrun : run.cancelled with
    | false =>
      exact agrees_analyzeClusters hsetting hfull hrun List.length_nil (Nat.zero_add _) h.symm
        hcomplete
    | true =>
      cases clusters with
      | nil =>
        obtain ⟨rfl, rfl⟩ := Prod.mk.inj (Except.ok.inj h)
        exact ⟨full, rfl⟩
      | cons =>
        rw [analyzeClusters_cons_of_cancelled hrun, if_pos (by simp)] at h
        obtain ⟨rfl, -⟩ := Prod.mk.inj (Except.ok.inj h)
        cases hcomplete

end Unmarked

/-- If no analysis fails on a run that nothing stops, none fails on a run that is stopped. -/
theorem exists_of_mayGive (hids : (clusters.map (·.id)).Nodup) {records : List Record}
    (hsetting : setting.records = Record.directory records) {full reached : AnalysisRun}
    {whole : List ClusterAnalysis} (hfull : full.Undisturbed)
    (hwhole : analyzeClusters setting clusters.length 0 full [] clusters = .ok (reached, whole))
    {result : Except Failure (AnalysisRun × List ClusterAnalysis)}
    (h : MayGive setting workers clusters run result) :
    ∃ after analyses, result = .ok (after, analyses) := by
  unfold MayGive at h
  split at h
  next =>
    obtain ⟨s, hs, hresult⟩ := h
    have hanswer (i : Fin clusters.length) :
        (clusterWork setting (clusters.get i)).All fun x => ∃ b, x = .ok b := by
      obtain ⟨mid, a, ha⟩ := exists_analyzeCluster hfull hwhole (List.get_mem clusters i)
      exact all_clusterWork_ok hsetting hfull ha
    rcases Pool.result?_eq_some hresult with ⟨analyses, -, rfl⟩ | ⟨e, hmain, rfl⟩
    · exact ⟨_, _, rfl⟩
    · obtain ⟨i, -, b, hb⟩ := (Pool.sound_of_reached hids hanswer hs).exists_of_failed hmain
      cases hb
  next =>
    subst h
    cases hrun : run.cancelled with
    | false => exact returns_analyzeClusters hsetting hfull hrun hwhole
    | true =>
      cases clusters with
      | nil => exact ⟨run, [], rfl⟩
      | cons => exact ⟨_, _, analyzeClusters_cons_of_cancelled hrun⟩

/-- Worker threads change nothing. A thread that had the run to itself would analyse its cluster as
the loop does, one access after the other. No order of steps goes on for ever, and with more than
one worker some thread has a next step until the main thread has ended. If nothing asks for a stop,
whatever the pool comes to is what the loop comes to: the same analyses in the order of the
clusters, each of them collected once, or a failure when the loop fails. And wherever a reporter
asks for a stop, or if the run was cancelled before, the analyses returned are in the order of the
clusters and without duplicates, all of them are collected, and the run is marked as aborted when a
cluster has none. The stop is no reason to fail when the records are looked up in a directory. -/
theorem workers_change_nothing (setting : Setting) (workers : Number) {clusters : List Cluster}
    (hids : (clusters.map (·.id)).Nodup) (run : AnalysisRun) :
    (∀ c ∈ clusters, ∀ r : AnalysisRun,
      (clusterWork setting c).perform r = analyzeCluster setting c r) ∧
    (∀ (w w' : Work ClusterAnalysis) (r r' : AnalysisRun),
      w.step r = some (r', w') → w.perform r = w'.perform r') ∧
    (WellFounded fun s' s : Pool clusters => Pool.Step setting workers s s') ∧
    ((1 : Number).below workers = true → ∀ s : Pool clusters, s.Reached setting workers run →
      (∃ result, s.result? = some result) ∨ ∃ s', Pool.Step setting workers s s') ∧
    (run.Undisturbed → ∀ result, MayGive setting workers clusters run result →
      (∀ after analyses,
        analyzeClusters setting clusters.length 0 run [] clusters = .ok (after, analyses) →
        ∃ after', result = .ok (after', analyses) ∧
          after'.results.Perm (run.results ++ analyses) ∧ after'.aborted = false) ∧
      (∀ e, analyzeClusters setting clusters.length 0 run [] clusters = .error e →
        ∃ e', result = .error e')) ∧
    (∀ after analyses, MayGive setting workers clusters run (.ok (after, analyses)) →
      (analyses.map (·.cluster)).Sublist clusters ∧ (analyses.map (·.cluster.id)).Nodup ∧
      (∀ a ∈ analyses, a ∈ after.results) ∧
      ((∃ c ∈ clusters, c ∉ analyses.map (·.cluster)) → after.aborted = true)) ∧
    ∀ records full reached whole, setting.records = Record.directory records → full.Undisturbed →
      analyzeClusters setting clusters.length 0 full [] clusters = .ok (reached, whole) →
      ∀ result, MayGive setting workers clusters run result →
        ∃ after analyses, result = .ok (after, analyses) := by
  refine ⟨fun c _ r => perform_clusterWork setting c r, fun _ _ _ _ => Work.perform_of_step,
    Pool.wellFounded_step, fun hworkers s hs => ?_,
    fun hrun result hresult => ⟨fun after analyses hloop => ?_, fun e hloop => ?_⟩,
    fun after analyses h => ?_,
    fun records full reached whole hsetting hfull hwhole result hresult =>
      exists_of_mayGive hids hsetting hfull hwhole hresult⟩
  · have hsound := Pool.sound_of_reached hids (fun i => all_clusterWork setting (clusters.get i)) hs
    exact hsound.exists_step (Number.below_of_lt (by decide) hworkers)
  · rcases agrees_of_mayGive hids hrun hresult with
      ⟨last, after', whole, hwhole, rfl, hsink, haborted⟩ | ⟨e, e', hfails, -⟩
    · obtain ⟨rfl, rfl⟩ := Prod.mk.inj (Except.ok.inj (hloop.symm.trans hwhole))
      exact ⟨after', rfl, hsink, haborted⟩
    · cases hfails.symm.trans hloop
  · rcases agrees_of_mayGive hids hrun hresult with
      ⟨last, after', whole, hwhole, -⟩ | ⟨e, e', -, rfl⟩
    · cases hwhole.symm.trans hloop
    · exact ⟨e', rfl⟩
  · obtain ⟨hsublist, hsink, hmissing⟩ := kept_of_mayGive hids h
    refine ⟨hsublist, ?_, hsink, hmissing⟩
    have hnodup := (hsublist.map (·.id)).nodup hids
    rwa [List.map_map] at hnodup

/-- A cluster of one user. -/
def clusterOfOne (id : ℕ) (oid : String) : Cluster where
  id
  mode := .user
  members := .ofList [oid]
  properties := .ofList ["dev", "ops"]
  chunkKeys := []
  statistics := .ofChunks [] []

def twoClusters : List Cluster := [clusterOfOne 0 "ann", clusterOfOne 1 "bob"]

/-- Two users are looked up, and all that they hold is usable. -/
def twoUsersSetting : Setting where
  detection := {}
  records := Record.directory Pattern.twoUsers
  frequencies := .ofList [("dev", 1), ("ops", 1)]
  weights := weightMap Pattern.twoUsers

theorem two_workers_analyse_two_clusters :
    ∃ (after : AnalysisRun) (analyses : List ClusterAnalysis),
    (twoClusters.map (·.id)).Nodup ∧ (Run.unwatched : AnalysisRun).Undisturbed ∧
    analyzeClusters twoUsersSetting twoClusters.length 0 Run.unwatched [] twoClusters =
      .ok (after, analyses) ∧ analyses.length = 2 ∧
    (∃ result, MayGive twoUsersSetting 2 twoClusters Run.unwatched result) ∧
    ∀ result, MayGive twoUsersSetting 2 twoClusters Run.unwatched result →
      ∃ after', result = .ok (after', analyses) ∧ after'.results.Perm analyses := by
  have hids : (twoClusters.map (·.id)).Nodup := by decide
  have hrun : (Run.unwatched : AnalysisRun).Undisturbed := Run.undisturbed_unwatched
  obtain ⟨-, -, -, -, hsame, -⟩ :=
    workers_change_nothing twoUsersSetting 2 hids (Run.unwatched : AnalysisRun)
  have hlength : ((analyzeClusters twoUsersSetting twoClusters.length 0 Run.unwatched []
      twoClusters).toOption.map fun x => x.2.length) = some 2 := by decide +kernel
  obtain ⟨⟨after, analyses⟩, hloop, htwo⟩ := exists_ok_of_toOption_map hlength
  refine ⟨after, analyses, hids, hrun, hloop, htwo, exists_mayGive hids .., fun result hresult =>
    ?_⟩
  obtain ⟨after', hresult, hsink, -⟩ := (hsame hrun result hresult).1 after analyses hloop
  exact ⟨after', hresult, hsink⟩

end RoleMining.Analysis
