import RoleMining.Proofs.Pool.Pipeline

/-!
# What a stopped analysis has published

Clustering publishes nothing; the loop over the clusters publishes what it lists. A stop inside the
analysis of a cluster is noticed by the two searches, which return what they have found so far, and
the loop takes it for the whole. So all published analyses but the last are those of the full run.
The last one is a part of its counterpart there, and all of it when the run was stopped only by the
report after it.
-/
namespace RoleMining

variable {α β γ : Type}

/-! ### Work that publishes nothing -/

/-- Whatever the run, some work collects no results. -/
def Silent (work : Run α → Except Failure (Run α × β)) : Prop :=
  ∀ run after b, work run = .ok (after, b) → after.results = run.results

namespace Silent

variable {work : Run α → Except Failure (Run α × β)}

theorem pure (b : β) : Silent fun run : Run α => .ok (run, b) := by
  intro run after b' h
  cases h
  rfl

theorem afterComputing {x : Except Failure γ} {work : γ → Run α → Except Failure (Run α × β)}
    (h : ∀ c, x = .ok c → Silent (work c)) : Silent fun run => x >>= fun c => work c run := by
  intro run after b hok
  obtain ⟨c, hc, hwork⟩ := bind_eq_ok_iff.1 hok
  exact h c hc run after b hwork

theorem gate (report : Report) (early : β) (h : Silent work) :
    Silent (Run.gated report early work) := by
  intro run after b hok
  unfold Run.gated at hok
  split at hok
  next =>
    cases hok
    rfl
  next => exact h (run.checkpoint report) after b hok

theorem close (report : Report) (f : Bool → β) : Silent fun run : Run α =>
    let run := run.checkpoint report
    let run := if run.cancelled then run.markAborted else run
    .ok (run, f run.aborted) := by
  intro run after b hok
  obtain ⟨rfl, -⟩ := Prod.mk.inj (Except.ok.inj hok)
  split <;> rfl

end Silent

namespace Clustering

variable (finder : CommunityFinder) (policy : Policy)

theorem silent_finish (chunks : List Chunk) (made : Partition) :
    Silent (finish policy chunks made : Run α → _) := by
  rw [funext (finish_eq policy chunks made)]
  refine .afterComputing fun groups _ => .gate _ _ ?_
  refine .afterComputing fun joined _ => .afterComputing fun clusters _ => ?_
  exact .close ⟨phases, phases, true⟩ fun aborted => conclude chunks clusters (some made) aborted

theorem silent_continued_divide (chunks : List Chunk) : Silent fun run : Run α =>
    divide finder policy chunks run >>= continued policy chunks := by
  cases hstrategy : policy.strategy with
  | communities =>
    simp only [continued_divide_of_communities finder policy chunks hstrategy]
    refine .afterComputing fun g _ => .gate _ _ (.afterComputing fun made _ => .gate _ _ ?_)
    exact silent_finish policy chunks made
  | exact =>
    simp only [continued_divide_of_exact finder policy chunks hstrategy]
    exact .gate _ _ (.gate _ _ (silent_finish policy chunks _))

/-- A clustering publishes nothing. -/
theorem silent_ofPopulation (records : List Record) :
    Silent (ofPopulation finder policy records : Run α → _) := by
  rw [funext (ofPopulation_eq finder policy records)]
  apply Silent.gate
  split
  next => exact .gate _ _ (.pure _)
  next => exact silent_continued_divide finder policy _

end Clustering

/-! ### The analysis of one cluster -/

namespace Mined

/-- What mining found before it was stopped, against all that it finds. -/
structure PartOf (found whole : Mined) : Prop where
  intersections : found.intersections.Sublist whole.intersections
  patterns : found.patterns.Sublist whole.patterns
  /-- The metric is that of the patterns found. -/
  reductionMetric : found.reductionMetric = Pattern.reductionMetric found.patterns

variable {mode : Mode} {detection : Detection} {frequencies : Frequencies}
variable {weights : Ledger String ℤ} {members : List Record} {full reached : Run α} {whole : Mined}

/-- Mining that returns has passed the checks of the thresholds, and has made both searches. -/
theorem ofMembers_eq_ok_iff {run after : Run α} {found : Mined} :
    ofMembers mode detection (some frequencies) weights members run = .ok (after, found) ↔
      ∃ limits base thresholds,
        Intersection.Limits.check detection.minIntersection detection.minFrequency
          detection.maxFrequency = .ok limits ∧
        baseOf mode weights members = .ok base ∧ detection.check = .ok thresholds ∧
        found.intersections = (Intersection.extract limits frequencies members run).2 ∧
        Pattern.detect mode thresholds (Reference.ofRecords mode base thresholds).chunks
          (Intersection.extract limits frequencies members run).1 = .ok (after, found.patterns) ∧
        found.reductionMetric = Pattern.reductionMetric found.patterns := by
  rw [ofMembers_eq]
  constructor
  · intro h
    obtain ⟨limits, hlimits, hrest⟩ := bind_eq_ok_iff.1 h
    obtain ⟨chunks, hchunks, hrest⟩ := bind_eq_ok_iff.1 hrest
    obtain ⟨thresholds, hthresholds, hrest⟩ := bind_eq_ok_iff.1 hrest
    obtain ⟨extracted, hextracted, hrest⟩ := bind_eq_ok_iff.1 hrest
    obtain ⟨detected, hdetected, hof⟩ := bind_eq_ok_iff.1 hrest
    obtain ⟨rfl, rfl⟩ := Prod.mk.inj (Except.ok.inj hof)
    obtain rfl := Except.ok.inj hextracted
    rw [chunksOf_eq mode weights members thresholds] at hchunks
    obtain ⟨base, hbase, hmade⟩ := bind_eq_ok_iff.1 hchunks
    obtain rfl := Except.ok.inj hmade
    exact ⟨limits, base, thresholds, hlimits, hbase, hthresholds, rfl, hdetected, rfl⟩
  · intro h
    obtain ⟨limits, base, thresholds, hlimits, hbase, hthresholds, hintersections, hdetect,
      hmetric⟩ := h
    have hchunks := chunksOf_eq mode weights members thresholds
    rw [hbase] at hchunks
    refine bind_eq_ok_iff.2 ⟨limits, hlimits, bind_eq_ok_iff.2 ⟨_, hchunks,
      bind_eq_ok_iff.2 ⟨thresholds, hthresholds, bind_eq_ok_iff.2 ⟨_, rfl,
        bind_eq_ok_iff.2 ⟨_, hdetect, ?_⟩⟩⟩⟩⟩
    change Except.ok (after, (⟨_, found.patterns, Pattern.reductionMetric found.patterns⟩ : Mined))
      = .ok (after, found)
    rw [← hintersections, ← hmetric]

/-- Mining that is stopped finds a part. -/
theorem partOf_of_ofMembers (hmembers : (members.map (·.oid)).Nodup) (hfull : full.Undisturbed)
    (h : ofMembers mode detection (some frequencies) weights members full = .ok (reached, whole))
    {run after : Run α} {found : Mined}
    (hrun : ofMembers mode detection (some frequencies) weights members run =
      .ok (after, found)) : found.PartOf whole := by
  obtain ⟨limits, base, thresholds, hlimits, hbase, hthresholds, hwhole, hlisted, -⟩ :=
    ofMembers_eq_ok_iff.1 h
  obtain ⟨limits', base', thresholds', hlimits', hbase', hthresholds', hfound, hkept, hmetric⟩ :=
    ofMembers_eq_ok_iff.1 hrun
  obtain rfl := Except.ok.inj (hlimits.symm.trans hlimits')
  obtain rfl := Except.ok.inj (hbase.symm.trans hbase')
  obtain rfl := Except.ok.inj (hthresholds.symm.trans hthresholds')
  have hextracted :=
    (Intersection.settles_extract limits frequencies members full).undisturbed hfull
  have hoids := nodup_oid_baseOf hmembers hbase
  refine ⟨?_, ?_, hmetric⟩
  · rw [hfound, hwhole]
    exact Intersection.extract_sublist hextracted.running
  · rw [← Reference.detect_ofRecords] at hlisted hkept
    obtain ⟨stop, kept, hkept', hsublist, -⟩ := Reference.detect_truncates
      (Reference.consistent_ofRecords mode thresholds hoids)
      (Reference.describes_ofRecords mode thresholds hoids) hextracted.toUnhindered hlisted
      (Intersection.extract limits frequencies members run).1
    obtain ⟨-, he⟩ := Prod.mk.inj (Except.ok.inj (hkept.symm.trans hkept'))
    rw [he]
    exact hsublist

end Mined

namespace Analysis

variable {setting : Setting} {records : List Record} {cluster : Cluster} {a b : ClusterAnalysis}
variable {run full after reached : AnalysisRun} {total done : ℕ}
variable {finished analyses found whole : List ClusterAnalysis}
variable {clusters : List Cluster}

/-- Of the analyses of a full run some first ones are published, and of the next one a part may
be. -/
inductive Published : List ClusterAnalysis → List ClusterAnalysis → Prop
  | none (whole : List ClusterAnalysis) : Published [] whole
  | part {b a : ClusterAnalysis} (hcluster : b.cluster = a.cluster)
      (hpart : b.mined.PartOf a.mined) (whole : List ClusterAnalysis) : Published [b] (a :: whole)
  | next {a : ClusterAnalysis} (hpart : a.mined.PartOf a.mined)
      {found whole : List ClusterAnalysis} (h : Published found whole) :
      Published (a :: found) (a :: whole)

/-- All published analyses but the last are whole. -/
theorem Published.dropLast_prefix (h : Published found whole) : found.dropLast <+: whole := by
  induction h with
  | none => exact List.nil_prefix
  | part => exact List.nil_prefix
  | @next a hpart found whole h ih =>
    cases found with
    | nil => exact List.nil_prefix
    | cons b found => exact List.cons_prefix_cons.2 ⟨rfl, ih⟩

theorem Published.exists_partOf (h : Published found whole) (hb : b ∈ found) :
    ∃ a ∈ whole, a.cluster = b.cluster ∧ b.mined.PartOf a.mined := by
  induction h with
  | none => cases hb
  | @part b' a hcluster hpart whole =>
    obtain rfl := List.mem_singleton.1 hb
    exact ⟨a, List.mem_cons_self, hcluster.symm, hpart⟩
  | @next a hpart found whole h ih =>
    rcases List.mem_cons.1 hb with rfl | hb
    · exact ⟨b, List.mem_cons_self, rfl, hpart⟩
    · obtain ⟨a', ha', hfound⟩ := ih hb
      exact ⟨a', List.mem_cons_of_mem a ha', hfound⟩

section Clusters

variable (hsetting : setting.records = Record.directory records)
include hsetting

theorem partOf_of_analyzeCluster (hfull : full.Undisturbed)
    (h : analyzeCluster setting cluster full = .ok (reached, a))
    (hrun : analyzeCluster setting cluster run = .ok (after, b)) : b.mined.PartOf a.mined := by
  obtain ⟨⟨last, whole⟩, hwhole, hof⟩ := bind_eq_ok_iff.1 h
  obtain ⟨-, rfl⟩ := Prod.mk.inj (Except.ok.inj hof)
  obtain ⟨⟨stop, found⟩, hfound, hof⟩ := bind_eq_ok_iff.1 hrun
  obtain ⟨-, rfl⟩ := Prod.mk.inj (Except.ok.inj hof)
  have hoids : ((Mined.membersOf setting.records cluster.members.toList).map (·.oid)).Nodup := by
    rw [hsetting]
    exact (Mined.oid_membersOf_sublist records _).nodup cluster.members.nodup_toList
  exact Mined.partOf_of_ofMembers hoids hfull hwhole hfound

/-- An analysis that was not stopped is whole. -/
theorem eq_of_analyzeCluster (hfull : full.Undisturbed)
    (h : analyzeCluster setting cluster full = .ok (reached, a))
    (hrun : analyzeCluster setting cluster run = .ok (after, b)) (hafter : after.aborted = false) :
    b = a := by
  obtain ⟨last, hlast⟩ := (stoppable_analyzeCluster hsetting cluster).agrees hfull hrun hafter
  exact (Prod.mk.inj (Except.ok.inj (hlast.symm.trans h))).2

/-- The loop goes on only with whole analyses. -/
theorem published_analyzeClusters (hfull : full.Undisturbed) (hrun : run.cancelled = false)
    (hcomplete : run.aborted = false) (hdone : finished.length = done)
    (htotal : done + clusters.length = total)
    (hwhole : analyzeClusters setting total done full finished clusters =
      .ok (reached, finished ++ whole))
    (h : analyzeClusters setting total done run finished clusters =
      .ok (after, finished ++ found)) :
    Published found whole ∧
      (Run.RefusedOnlyAt run after (report total (done + found.length)) → found <+: whole) := by
  induction clusters generalizing run full done finished found whole with
  | nil =>
    obtain ⟨-, he⟩ := Prod.mk.inj (Except.ok.inj h)
    obtain rfl := List.self_eq_append_right.1 he
    exact ⟨.none whole, fun _ => List.nil_prefix⟩
  | cons cluster clusters ih =>
    rw [List.length_cons] at htotal
    rw [analyzeClusters_cons hrun] at h
    obtain ⟨⟨mid, b⟩, hcluster, hloop⟩ := bind_eq_ok_iff.1 h
    obtain ⟨⟨fullMid, a⟩, hfullCluster, -⟩ :=
      bind_eq_ok_iff.1 ((analyzeClusters_cons hfull.running).symm.trans hwhole)
    obtain ⟨hnext, hgoes⟩ := analyzeClusters_cons_of_undisturbed hsetting hfull hfullCluster
    rw [hgoes] at hwhole
    have hlength (c : ClusterAnalysis) : (finished ++ [c]).length = done + 1 := by simp [hdone]
    have hleft : done + 1 + clusters.length = total := by omega
    obtain ⟨rest, hrest, -⟩ := exists_of_analyzeClusters (hlength a) hleft hwhole
    rw [List.append_assoc, List.singleton_append, List.append_cancel_left_eq] at hrest
    subst hrest
    have hmid := (stoppable_analyzeCluster hsetting cluster).continues hcluster
    have hadvance : mid.Continues (advance total (done + 1) (mid, b)) := continues_advance (mid, b)
    -- a stop during the analysis of the cluster is what sets it apart
    have hsame (hrunning : mid.cancelled = false) : b = a :=
      eq_of_analyzeCluster hsetting hfull hfullCluster hcluster (hmid.complete hcomplete hrunning)
    have hpart := partOf_of_analyzeCluster hsetting hfull hfullCluster hcluster
    split at hloop
    next hstopped =>
      obtain ⟨rfl, he⟩ := Prod.mk.inj (Except.ok.inj hloop)
      obtain rfl := List.append_cancel_left he
      have hab : b.cluster = a.cluster := (cluster_of_analyzeCluster hcluster).trans
        (cluster_of_analyzeCluster hfullCluster).symm
      refine ⟨.part hab hpart rest, fun hrefused => ?_⟩
      cases hcancelled : mid.cancelled with
      | false => exact List.cons_prefix_cons.2 ⟨hsame hcancelled, List.nil_prefix⟩
      | true =>
        have hlonger : mid.calls.length < (advance total (done + 1) (mid, b)).calls.length := by
          simp [advance, Run.checkpoint, Run.collect]
        revert hrefused
        split
        next =>
          exact fun h => absurd h (Run.not_refusedOnlyAt hmid hrun hcancelled
            (hadvance.trans (Run.continues_markAborted hstopped)) hlonger)
        next =>
          exact fun h => absurd h (Run.not_refusedOnlyAt hmid hrun hcancelled hadvance hlonger)
    next hgoing =>
      have hrunning := eq_false_of_ne_true hgoing
      obtain rfl := hsame (hadvance.running hrunning)
      have hbegun := hmid.trans hadvance
      obtain ⟨more, hmore, -⟩ := exists_of_analyzeClusters (hlength b) hleft hloop
      rw [List.append_assoc, List.singleton_append, List.append_cancel_left_eq] at hmore
      subst hmore
      rw [List.append_cons finished b rest] at hwhole
      rw [List.append_cons finished b more] at hloop
      have hends := concludes_analyzeClusters hsetting hrunning (hlength b) hleft hloop
      obtain ⟨hpublished, hprefix⟩ := ih hnext hrunning (hbegun.complete hcomplete hrunning)
        (hlength b) hleft hwhole hloop
      refine ⟨.next hpart hpublished, fun hrefused => List.cons_prefix_cons.2 ⟨rfl, hprefix ?_⟩⟩
      rw [← Run.refusedOnlyAt_iff_of_running hbegun hrunning hends.continues]
      rwa [List.length_cons, Nat.add_comm more.length, ← Nat.add_assoc] at hrefused

end Clusters

/-- What is listed is what is collected, for a first part of the clusters. -/
theorem collected_of_analysesOf {x : AnalysisRun × Clustering}
    (h : analysesOf setting x = .ok (after, analyses)) :
    after.results = x.1.results ++ analyses ∧ analyses.map (·.cluster) <+: x.2.clusters := by
  rcases analysesOf_cases h with ⟨-, he⟩ | ⟨-, -, hloop⟩
  · obtain ⟨rfl, rfl⟩ := Prod.mk.inj he
    exact ⟨(List.append_nil _).symm, List.nil_prefix⟩
  · obtain ⟨added, rfl, hinitial, hcollected, -⟩ :=
      exists_of_analyzeClusters List.length_nil (Nat.zero_add _) hloop
    exact ⟨hcollected, hinitial⟩

section Stages

variable {finder : CommunityFinder} {settings : Settings}
variable {policy : Policy} {thresholds : Thresholds} {frequencies : Frequencies}
variable {x x' : AnalysisRun × Clustering} {y y' : AnalysisRun × List ClusterAnalysis}

/-- Two runs that come to their clusters come to the same ones. -/
theorem Stages.clustering_eq_of_complete (hfull : full.Undisturbed)
    (h : Stages finder settings records full policy thresholds frequencies x y)
    (hrun : Stages finder settings records run policy thresholds frequencies x' y')
    (hcomplete : x'.1.aborted = false) : x'.2 = x.2 := by
  obtain ⟨again, hagain⟩ := (Clustering.stoppable_ofPopulation finder policy records).agrees hfull
    hrun.clustering_eq hcomplete
  exact (congrArg Prod.snd (Except.ok.inj (h.clustering_eq.symm.trans hagain))).symm

theorem Stages.published (hfull : full.Undisturbed)
    (h : Stages finder settings records full policy thresholds frequencies x y)
    (hrun : Stages finder settings records run policy thresholds frequencies x' y') :
    Published y'.2 y.2 ∧
      (Run.RefusedOnlyAt run y'.1 (report x'.2.clusters.length y'.2.length) → y'.2 <+: y.2) := by
  rcases analysesOf_cases hrun.analyses_eq with ⟨-, rfl⟩ | ⟨hclusters, hcomplete, hloop⟩
  · exact ⟨.none y.2, fun _ => List.nil_prefix⟩
  · have hmid : x.1.Undisturbed := h.continues_clustered.undisturbed hfull
    have hsame := h.clustering_eq_of_complete hfull hrun hcomplete
    have hwhole := h.analyses_eq
    rw [hsame] at hclusters hloop ⊢
    rw [analysesOf_of_going hclusters hmid.complete] at hwhole
    have hrunning := hrun.told.running hcomplete
    obtain ⟨hpublished, hprefix⟩ := published_analyzeClusters rfl hmid hrunning hcomplete
      List.length_nil (Nat.zero_add _) hwhole hloop
    refine ⟨hpublished, fun hrefused => hprefix ?_⟩
    rwa [Nat.zero_add, ← Run.refusedOnlyAt_iff_of_running hrun.continues_clustered hrunning
      hrun.continues_analysed]

end Stages

/-- An analysis collects what it lists. -/
theorem results_of_ofRecords {finder : CommunityFinder} {settings : Settings} {a : Analysis}
    (h : ofRecords finder settings records run = .ok (after, a)) :
    after.results = run.results ++ a.clusters := by
  obtain ⟨policy, thresholds, frequencies, x, y, hstages, rfl, rfl⟩ := ofRecords_eq_ok_iff.1 h
  have hclustered : x.1.results = run.results :=
    Clustering.silent_ofPopulation finder policy records run x.1 x.2 hstages.clustering_eq
  exact (collected_of_analysesOf hstages.analyses_eq).1.trans (by rw [hclustered]; rfl)

/-- A stopped analysis returns what it has published, and that is made of the analyses of the full
run. All of them but the last are analyses of the full run, the first ones in their order. The last
one belongs to the next cluster there, and lists some of its shared sets and some of its patterns.
It is whole when no call was refused before the report after it. -/
theorem stopped_analysis_publishes_parts (finder : CommunityFinder) (settings : Settings)
    (records : List Record) {full reached : AnalysisRun} {whole : Analysis}
    (hfull : full.Undisturbed)
    (h : ofRecords finder settings records full = .ok (reached, whole)) (run : AnalysisRun) :
    (whole.clusters.map (·.cluster.id)).Nodup ∧
    (∃ after a, ofRecords finder settings records run = .ok (after, a)) ∧
    ∀ after a, ofRecords finder settings records run = .ok (after, a) →
      after.results = run.results ++ a.clusters ∧
      a.clusters.dropLast <+: whole.clusters ∧
      (∀ b ∈ a.clusters, ∃ c ∈ whole.clusters, c.cluster = b.cluster ∧ b.mined.PartOf c.mined) ∧
      (Run.RefusedOnlyAt run after ⟨a.clusters.length, a.clustering.clusters.length,
          a.clusters.length == a.clustering.clusters.length⟩ →
        a.clusters <+: whole.clusters) := by
  obtain ⟨policy, thresholds, frequencies, x, y, hstages, rfl, rfl⟩ := ofRecords_eq_ok_iff.1 h
  refine ⟨?_, ?_, fun after a hreturns => ?_⟩
  · have hids := (collected_of_analysesOf hstages.analyses_eq).2.sublist.map (·.id)
    rw [List.map_map] at hids
    exact hids.nodup (Clustering.nodup_id hstages.clustering_eq)
  · obtain ⟨x', y', hrun⟩ := hstages.returns hfull run
    exact ⟨_, _, ofRecords_eq_ok_iff.2 ⟨_, _, _, x', y', hrun, rfl, rfl⟩⟩
  · obtain ⟨policy', thresholds', frequencies', x', y', hrun, rfl, rfl⟩ :=
      ofRecords_eq_ok_iff.1 hreturns
    obtain rfl := Except.ok.inj (hstages.policy_eq.symm.trans hrun.policy_eq)
    obtain rfl := Except.ok.inj (hstages.thresholds_eq.symm.trans hrun.thresholds_eq)
    obtain rfl := Except.ok.inj (hstages.frequencies_eq.symm.trans hrun.frequencies_eq)
    obtain ⟨hpublished, hprefix⟩ := hstages.published hfull hrun
    exact ⟨results_of_ofRecords hreturns, hpublished.dropLast_prefix,
      fun b hb => hpublished.exists_partOf hb, hprefix⟩

theorem late_stop_publishes_every_cluster :
    ∃ (after reached : AnalysisRun) (a whole : Analysis),
      (Run.unwatched : AnalysisRun).Undisturbed ∧
      ofRecords Community.best exactSettings Pattern.twoUsers Run.unwatched =
        .ok (reached, whole) ∧
      ofRecords Community.best exactSettings Pattern.twoUsers stoppedAtEnd = .ok (after, a) ∧
      after.cancelled = true ∧ Run.RefusedOnlyAt stoppedAtEnd after ⟨1, 1, true⟩ ∧
      a.clusters.length = 1 ∧ a.clusters <+: whole.clusters := by
  have hfull : (Run.unwatched : AnalysisRun).Undisturbed := Run.undisturbed_unwatched
  have hwhole : ((ofRecords Community.best exactSettings Pattern.twoUsers
      Run.unwatched).toOption.map fun x => x.2.clusters.length) = some 1 := by decide +kernel
  obtain ⟨⟨reached, whole⟩, hreached, -⟩ := exists_ok_of_toOption_map hwhole
  obtain ⟨-, ⟨after, a, hafter⟩, hparts⟩ := stopped_analysis_publishes_parts Community.best
    exactSettings Pattern.twoUsers hfull hreached stoppedAtEnd
  obtain ⟨-, -, -, hprefix⟩ := hparts after a hafter
  have hends : ((ofRecords Community.best exactSettings Pattern.twoUsers
      stoppedAtEnd).toOption.map fun x => (x.1.cancelled, x.1.calls.length, x.1.calls[10]?,
        x.2.clusters.length, x.2.clustering.clusters.length)) =
          some (true, 11, some ⟨1, 1, true⟩, 1, 1) := by decide +kernel
  rw [hafter] at hends
  simp only [Except.toOption, Option.map_some, Option.some_inj, Prod.mk.injEq] at hends
  obtain ⟨hcancelled, hcalls, hlast, hone, hclusters⟩ := hends
  have hreporter : after.reporter = fun calls => decide (calls.length < 11) := by
    obtain ⟨_, _, _, _, _, hstages, rfl, -⟩ := ofRecords_eq_ok_iff.1 hafter
    exact (hstages.continues_clustered.trans hstages.continues_analysed).reporter
  have hrefused : Run.RefusedOnlyAt stoppedAtEnd after ⟨1, 1, true⟩ := by
    intro i _ hi
    have htwelfth := hi.2
    have hlt := hi.1
    rw [hreporter, decide_eq_false_iff_not, List.length_take] at htwelfth
    obtain rfl : i = 10 := by omega
    exact ⟨hcalls.symm, hlast⟩
  rw [hone, hclusters] at hprefix
  exact ⟨after, reached, a, whole, hfull, hreached, hafter, hcancelled, hrefused, hone,
    hprefix hrefused⟩

/-- The reporter says no at the sixth report, the first one in the analysis of a cluster. -/
def stoppedInside : AnalysisRun :=
  { Run.unwatched with reporter := fun calls => calls.length < 6 }

/-- What a test reads off published analyses: the cluster, and how many patterns it has. -/
def patternCounts (analyses : List ClusterAnalysis) : List (ℕ × ℕ) :=
  analyses.map fun a => (a.cluster.id, a.mined.patterns.length)

theorem exists_of_patternCounts {id count : ℕ} (h : patternCounts analyses = [(id, count)]) :
    ∃ a ∈ analyses, a.cluster.id = id ∧ a.mined.patterns.length = count := by
  have hmem : (id, count) ∈ patternCounts analyses := by simp [h]
  obtain ⟨a, ha, he⟩ := List.mem_map.1 hmem
  exact ⟨a, ha, Prod.mk.inj he⟩

/-- Users with the same roles are a cluster and have a pattern. A stop of the search for what they
share hides the pattern, and the rest is published as the analysis of the cluster. -/
theorem stop_inside_cluster_publishes_half :
    ∃ (after reached : AnalysisRun) (a whole : Analysis) (b c : ClusterAnalysis),
      (Run.unwatched : AnalysisRun).Undisturbed ∧
      ofRecords Community.best exactSettings Pattern.twoUsers Run.unwatched =
        .ok (reached, whole) ∧
      ofRecords Community.best exactSettings Pattern.twoUsers stoppedInside = .ok (after, a) ∧
      b ∈ a.clusters ∧ b ∈ after.results ∧ c ∈ whole.clusters ∧ b.cluster.id = c.cluster.id ∧
      b.mined.patterns.length = 0 ∧ c.mined.patterns.length = 1 := by
  have hfull : (Run.unwatched : AnalysisRun).Undisturbed := Run.undisturbed_unwatched
  have hwhole : ((ofRecords Community.best exactSettings Pattern.twoUsers
      Run.unwatched).toOption.map fun x => patternCounts x.2.clusters) = some [(1, 1)] := by
    decide +kernel
  have hhalf : ((ofRecords Community.best exactSettings Pattern.twoUsers
      stoppedInside).toOption.map fun x => patternCounts x.2.clusters) = some [(1, 0)] := by
    decide +kernel
  obtain ⟨⟨reached, whole⟩, hreached, hwhole⟩ := exists_ok_of_toOption_map hwhole
  obtain ⟨⟨after, a⟩, hafter, hhalf⟩ := exists_ok_of_toOption_map hhalf
  obtain ⟨b, hb, hid, hnone⟩ := exists_of_patternCounts hhalf
  obtain ⟨c, hc, hid', hone⟩ := exists_of_patternCounts hwhole
  have hcollected : b ∈ after.results := by
    rw [results_of_ofRecords hafter]
    exact List.mem_append_right _ hb
  exact ⟨after, reached, a, whole, b, c, hfull, hreached, hafter, hb, hcollected, hc,
    hid.trans hid'.symm, hnone, hone⟩

end Analysis
end RoleMining
