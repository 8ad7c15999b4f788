import RoleMining.Proofs.Analysis.Interruption
import RoleMining.Proofs.Analysis.Success
import RoleMining.Proofs.Cluster.Feasibility
import RoleMining.Proofs.Settings.Nesting

/-!
# When an analysis succeeds

Valid settings do not bring every analysis to an end. An infinite interval is a valid one, but no
run can poll at it; a number of clusters with a fraction is valid, but no list can be cut off there.
Frequencies and scores are doubles, and weights may be beyond them. With every chunk a group by
itself these, and weights of chunks that have wrapped around, are all that an analysis can fail on.
Its result is shown with a copy of the settings, for which the stack has to have room.
-/
namespace RoleMining

/-! ### Frequencies -/

namespace Frequencies

variable {records : List Record}

/-- The weights of some records, and what they add up to, are within the range of doubles. -/
structure Countable (records : List Record) : Prop where
  weights : ∀ r ∈ records, (Binary64.ofInt r.weight).isFinite = true
  total : (Arithmetic.pairwiseSum (records.map fun r => Binary64.ofInt r.weight)).isFinite = true

theorem doubleWeight_eq_error {r : Record} (h : (Binary64.ofInt r.weight).isFinite = false) :
    doubleWeight r = .error .numberTooLarge := by
  unfold doubleWeight Binary64.ofInt?
  simp [h]

theorem mapM_doubleWeight_eq_error {r : Record} (hr : r ∈ records)
    (h : (Binary64.ofInt r.weight).isFinite = false) :
    (records.mapM fun r => return (r, ← doubleWeight r)) = .error .numberTooLarge := by
  refine mapM_eq_error hr ?_ fun r' _ failure hfails => ?_
  · rw [doubleWeight_eq_error h]
    rfl
  · cases hfinite : (Binary64.ofInt r'.weight).isFinite with
    | true =>
      rw [doubleWeight_eq_ok hfinite] at hfails
      cases hfails
    | false =>
      rw [doubleWeight_eq_error hfinite] at hfails
      exact (Except.error.inj hfails).symm

theorem exists_ofRecords (h : Countable records) :
    ∃ frequencies, ofRecords records = .ok frequencies :=
  ⟨_, ofRecords_eq_of_doubleWeight (fun r hr => doubleWeight_eq_ok (h.weights r hr)) h.total⟩

theorem ofRecords_eq_error (h : ¬ Countable records) :
    ofRecords records = .error .numberTooLarge := by
  have hsome : records.isEmpty = false := by
    rw [List.isEmpty_eq_false_iff]
    rintro rfl
    exact h ⟨by simp, by decide +kernel⟩
  unfold ofRecords
  by_cases hweights : ∀ r ∈ records, (Binary64.ofInt r.weight).isFinite = true
  · have htotal :
        (Arithmetic.pairwiseSum (records.map fun r => Binary64.ofInt r.weight)).isFinite = false :=
      eq_false_of_ne_true fun htotal => h ⟨hweights, htotal⟩
    rw [hsome, mapM_doubleWeight_eq_ok fun r hr => doubleWeight_eq_ok (hweights r hr)]
    simp only [bind, Except.bind, map_snd_pairs, htotal, Bool.false_eq_true, if_false]
    rfl
  · push Not at hweights
    obtain ⟨r, hr, hweight⟩ := hweights
    rw [hsome, mapM_doubleWeight_eq_error hr (eq_false_of_ne_true hweight)]
    rfl

end Frequencies

/-! ### A run of its own -/

theorem Settings.runtime_of_complaints {settings : Settings} (h : settings.complaints = .ok []) :
    settings.runtime.complaints = .ok [] := by
  unfold complaints complaintsAbout at h
  obtain ⟨first, -, h⟩ := bind_eq_ok_iff.1 h
  obtain ⟨second, -, h⟩ := bind_eq_ok_iff.1 h
  obtain ⟨third, hthird, h⟩ := bind_eq_ok_iff.1 h
  rw [hthird, (List.append_eq_nil_iff.1 (Except.ok.inj h)).2]

/-- A valid interval is an integer, or a double that is not below one. -/
theorem Runtime.interval_of_complaints {r : Runtime} (h : r.complaints = .ok []) :
    (∃ n, r.progressInterval = .int n) ∨ ∃ x, r.progressInterval = .float x ∧ x.isNaN = false ∧
      (Number.float x).below 1 = false := by
  unfold complaints at h
  obtain ⟨workers, -, h⟩ := bind_eq_ok_iff.1 h
  obtain ⟨interval, hinterval, h⟩ := bind_eq_ok_iff.1 h
  obtain rfl : interval = [] :=
    (List.append_eq_nil_iff.1 (List.append_eq_nil_iff.1 (Except.ok.inj h)).1).2
  unfold positiveComplaints at hinterval
  obtain ⟨measured, hmeasure, hinterval⟩ := bind_eq_ok_iff.1 hinterval
  cases measured with
  | none => cases hinterval
  | some number =>
    obtain ⟨hnumber, hnan⟩ := Json.number?_of_measure hmeasure
    have hlow : number.below 1 = false := by
      cases hlow : number.below 1 with
      | false => rfl
      | true => simp [hlow, pure, Except.pure] at hinterval
    cases hvalue : r.progressInterval with
    | int n => exact .inl ⟨n, rfl⟩
    | float x =>
      rw [hvalue] at hnumber
      obtain rfl := Option.some_inj.1 hnumber
      exact .inr ⟨x, rfl, (Number.isNaN_float x).symm.trans hnan, hlow⟩
    | _ =>
      rw [hvalue] at hnumber
      cases hnumber

theorem Run.undisturbed_of_ofInterval {α : Type} {interval : Json} {run : Run α}
    (h : Run.ofInterval interval (fun _ => true) = .ok run) : run.Undisturbed := by
  obtain ⟨every, -, h⟩ := bind_eq_ok_iff.1 h
  dsimp only at h
  split at h
  next =>
    obtain rfl := Except.ok.inj h
    exact ⟨⟨rfl, fun _ => rfl⟩, rfl⟩
  next =>
    obtain rfl := Except.ok.inj h
    exact ⟨⟨rfl, fun _ => rfl⟩, rfl⟩

namespace Analysis

variable {settings : Settings} {records : List Record}

theorem freshRun_eq_error {α : Type}
    (h : settings.runtime.progressInterval = .float (.infinite false)) :
    (freshRun settings : Except Failure (Run α)) = .error .numberTooLarge := by
  unfold freshRun
  rw [h]
  rfl

theorem exists_freshRun {α : Type} (hvalid : settings.complaints = .ok [])
    (h : settings.runtime.progressInterval ≠ .float (.infinite false)) :
    ∃ run : Run α, freshRun settings = .ok run ∧ run.Undisturbed := by
  have hinteger : ∃ n, settings.runtime.progressInterval.toInteger = .ok n := by
    rcases Runtime.interval_of_complaints (Settings.runtime_of_complaints hvalid) with
      ⟨n, hn⟩ | ⟨x, hx, hnan, hlow⟩
    · exact ⟨n, by rw [hn]; rfl⟩
    · rw [hx] at h ⊢
      cases x with
      | nan => cases hnan
      | infinite negative =>
        obtain rfl : negative = false := hlow
        exact absurd rfl h
      | finite => exact ⟨_, rfl⟩
  obtain ⟨n, hn⟩ := hinteger
  suffices hrun : ∃ run : Run α, freshRun settings = .ok run by
    obtain ⟨run, hrun⟩ := hrun
    exact ⟨run, hrun, Run.undisturbed_of_ofInterval hrun⟩
  unfold freshRun Run.ofInterval
  rw [hn]
  dsimp only [bind, Except.bind]
  split <;> exact ⟨_, rfl⟩

end Analysis

/-! ### The analysis of the clusters -/

namespace Mined

variable {α : Type} {mode : Mode} {detection : Detection} {thresholds : Thresholds}
variable {frequencies : Frequencies} {weights : Ledger String ℤ} {members : List Record}
variable {run after : Run α}

/-- Members are not mined when a score is too large, and for no other reason. -/
theorem ofMembers_eq_error (hvalid : detection.complaints = .ok [])
    (hpositive : ∀ x, 1 ≤ weightIn weights.find? x) (hmembers : (members.map (·.oid)).Nodup)
    {failure : Failure}
    (h : ofMembers mode detection (some frequencies) weights members run = .error failure) :
    failure = .numberTooLarge := by
  obtain ⟨limits, hlimits⟩ := Detection.exists_limits hvalid
  obtain ⟨thresholds, hthresholds, -⟩ := Detection.exists_check hvalid
  obtain ⟨base, hbase⟩ := exists_baseOf hpositive mode members
  have hr := Reference.consistent_ofRecords mode thresholds (nodup_oid_baseOf hmembers hbase)
  rw [ofMembers_eq, hlimits, hthresholds, chunksOf_eq mode weights members thresholds, hbase] at h
  have hdetect : Pattern.detect mode thresholds
      (Reference.ofRecords mode base thresholds).chunks
      (Intersection.extract limits frequencies members run).1 = .error failure :=
    eq_error_of_bind (fun _ => ⟨_, rfl⟩) h
  exact (Reference.detect_eq_error hr ((Reference.detect_ofRecords ..).trans hdetect)).1

/-- Mining that nothing stops has given every pattern that there may be a score. -/
theorem scorable_of_ofMembers (hmembers : (members.map (·.oid)).Nodup) (hrun : run.Undisturbed)
    (hthresholds : detection.check = .ok thresholds) {mined : Mined}
    (h : ofMembers mode detection (some frequencies) weights members run = .ok (after, mined)) :
    Scorable mode thresholds weights members := by
  obtain ⟨limits, base, checked, -, hbase, hchecked, -, hdetect, -⟩ := ofMembers_eq_ok_iff.1 h
  obtain rfl := Except.ok.inj (hthresholds.symm.trans hchecked)
  intro base' hbase' S B hS
  obtain rfl := Except.ok.inj (hbase.symm.trans hbase')
  have hoids := nodup_oid_baseOf hmembers hbase
  have hr := Reference.consistent_ofRecords mode thresholds hoids
  have hextracted := (Intersection.settles_extract limits frequencies members run).undisturbed hrun
  have hfound := (Reference.detect_ofRecords ..).trans hdetect
  exact Reference.isSome_score_of_detect hr hfound
    (Reference.cancelled_detect hr hextracted.toUnhindered hfound)
    (Reference.describes_ofRecords mode thresholds hoids) hS

end Mined

namespace Analysis

variable {setting : Setting} {settings : Settings} {records : List Record} {policy : Policy}
variable {thresholds : Thresholds} {frequencies : Frequencies} {finder : CommunityFinder}
variable {run : AnalysisRun} {clusters : List Cluster} {failure : Failure}

theorem analyzeCluster_eq_error (hvalid : settings.detection.complaints = .ok []) {mode : Mode}
    {c : Cluster} (h : analyzeCluster (settingOf settings mode records frequencies) c run =
      .error failure) : failure = .numberTooLarge := by
  have hmined : Mined.ofMembers c.mode settings.detection (some frequencies) (weightMap records)
      (c.memberRecords (analysed mode records)) run = .error failure :=
    eq_error_of_bind (fun _ => ⟨_, rfl⟩) h
  exact Mined.ofMembers_eq_error hvalid one_le_weightMap (c.nodup_oid_memberRecords _) hmined

/-- The loop fails with the analysis of a cluster. -/
theorem exists_of_analyzeClusters_eq_error {total done : ℕ} {finished : List ClusterAnalysis}
    (h : analyzeClusters setting total done run finished clusters = .error failure) :
    ∃ c ∈ clusters, ∃ reached, analyzeCluster setting c reached = .error failure := by
  induction clusters generalizing run done finished with
  | nil => cases h
  | cons c clusters ih =>
    cases hrun : run.cancelled with
    | true =>
      rw [analyzeClusters_cons_of_cancelled hrun] at h
      cases h
    | false =>
      rw [analyzeClusters_cons hrun] at h
      cases hcluster : analyzeCluster setting c run with
      | error e =>
        rw [hcluster] at h
        obtain rfl := Except.error.inj h
        exact ⟨c, List.mem_cons_self, run, hcluster⟩
      | ok x =>
        rw [hcluster] at h
        dsimp only [bind, Except.bind] at h
        split at h
        next => cases h
        next =>
          obtain ⟨c', hc', hfails⟩ := ih h
          exact ⟨c', List.mem_cons_of_mem c hc', hfails⟩

theorem analysesOf_eq_error (hvalid : settings.detection.complaints = .ok []) {mode : Mode}
    {x : AnalysisRun × Clustering}
    (h : analysesOf (settingOf settings mode records frequencies) x = .error failure) :
    failure = .numberTooLarge := by
  unfold analysesOf at h
  split at h
  next => cases h
  next =>
    obtain ⟨c, -, reached, hfails⟩ := exists_of_analyzeClusters_eq_error h
    exact analyzeCluster_eq_error hvalid hfails

theorem scorable_of_analysesOf (hthresholds : settings.detection.check = .ok thresholds)
    {mode : Mode} {x : AnalysisRun × Clustering} (hx : x.1.Undisturbed)
    (hmode : ∀ c ∈ x.2.clusters, c.mode = mode) {y : AnalysisRun × List ClusterAnalysis}
    (h : analysesOf (settingOf settings mode records frequencies) x = .ok y) :
    ∀ c ∈ x.2.clusters, c.Scorable thresholds records := by
  intro c hc
  rcases analysesOf_cases h with ⟨hnone | haborted, -⟩ | ⟨-, -, hloop⟩
  · rw [hnone] at hc
    cases hc
  · cases haborted.symm.trans hx.complete
  · obtain ⟨mid, a, ha⟩ := exists_analyzeCluster hx hloop hc
    obtain ⟨⟨reached, mined⟩, hmined, -⟩ := bind_eq_ok_iff.1 ha
    obtain rfl := hmode c hc
    exact Mined.scorable_of_ofMembers (c.nodup_oid_memberRecords _) hx hthresholds hmined

/-! ### All of the analysis -/

/-- What an analysis needs that takes every chunk for a cluster. -/
structure Feasible (finder : CommunityFinder) (policy : Policy) (thresholds : Thresholds)
    (records : List Record) : Prop where
  countable : Frequencies.Countable (analysed policy.mode records)
  weighable : Clustering.Weighable policy (Clustering.chunksFor policy.mode records)
  placeable : Clustering.Placeable policy (Clustering.chunksFor policy.mode records)
  scorable : ∀ (run after : AnalysisRun) (clustering : Clustering), run.Undisturbed →
    Clustering.ofPopulation finder policy records run = .ok (after, clustering) →
    ∀ c ∈ clustering.clusters, c.Scorable thresholds records

/-- What an analysis comes to: a result, or the failure of the first thing that it lacks. -/
inductive Outcome (finder : CommunityFinder) (policy : Policy) (thresholds : Thresholds)
    (records : List Record) : Except Failure (AnalysisRun × Analysis) → Prop
  | result (h : Feasible finder policy thresholds records) (x : AnalysisRun × Analysis) :
    Outcome finder policy thresholds records (.ok x)
  | uncountable (h : ¬ Frequencies.Countable (analysed policy.mode records)) :
    Outcome finder policy thresholds records (.error .numberTooLarge)
  | unweighable (hcountable : Frequencies.Countable (analysed policy.mode records))
    (h : ¬ Clustering.Weighable policy (Clustering.chunksFor policy.mode records))
    (weight : Number) (oid : String) :
    Outcome finder policy thresholds records (.error (.weightTooSmall weight oid))
  | unplaceable (hweighable : Clustering.Weighable policy (Clustering.chunksFor policy.mode records))
    (h : ¬ Clustering.Placeable policy (Clustering.chunksFor policy.mode records)) :
    Outcome finder policy thresholds records (.error .wrongType)
  | unscorable (hweighable : Clustering.Weighable policy (Clustering.chunksFor policy.mode records))
    (h : ¬ Feasible finder policy thresholds records) :
    Outcome finder policy thresholds records (.error .numberTooLarge)

theorem Outcome.ok_iff {result : Except Failure (AnalysisRun × Analysis)}
    (h : Outcome finder policy thresholds records result) :
    (∃ x, result = .ok x) ↔ Feasible finder policy thresholds records := by
  cases h with
  | result h x => exact iff_of_true ⟨x, rfl⟩ h
  | uncountable h => exact iff_of_false (by simp) fun hfeasible => h hfeasible.countable
  | unweighable _ h => exact iff_of_false (by simp) fun hfeasible => h hfeasible.weighable
  | unplaceable _ h => exact iff_of_false (by simp) fun hfeasible => h hfeasible.placeable
  | unscorable _ h => exact iff_of_false (by simp) h

/-- What is shown of an analysis: its result with a copy of the settings, if there is room for one,
or its failure. -/
inductive Answered (room : ℕ) (finder : CommunityFinder) (policy : Policy)
    (thresholds : Thresholds) (settings : Settings) (records : List Record) :
    Except Failure Json → Prop
  | shown (h : Feasible finder policy thresholds records) (hroom : settings.NestsWithin room)
    (json : Json) : Answered room finder policy thresholds settings records (.ok json)
  | nestedTooDeep (h : Feasible finder policy thresholds records)
    (hroom : ¬ settings.NestsWithin room) :
    Answered room finder policy thresholds settings records (.error .nestedTooDeep)
  | failed (failure : Failure) (h : Outcome finder policy thresholds records (.error failure)) :
    Answered room finder policy thresholds settings records (.error failure)

theorem Answered.ok_iff {room : ℕ} {result : Except Failure Json}
    (h : Answered room finder policy thresholds settings records result) :
    (∃ json, result = .ok json) ↔
      Feasible finder policy thresholds records ∧ settings.NestsWithin room := by
  cases h with
  | shown h hroom json => exact iff_of_true ⟨json, rfl⟩ ⟨h, hroom⟩
  | nestedTooDeep _ hroom => exact iff_of_false (by simp) fun hboth => hroom hboth.2
  | failed failure h =>
    refine iff_of_false (by simp) fun hboth => ?_
    obtain ⟨_, hok⟩ := h.ok_iff.2 hboth.1
    cases hok

theorem ofRecords_eq_of_checks (hsession : settings.session.check = .ok policy)
    (hthresholds : settings.detection.check = .ok thresholds) :
    ofRecords finder settings records run =
      Frequencies.ofRecords (analysed policy.mode records) >>= fun frequencies =>
      Clustering.ofPopulation finder policy records run >>= fun x =>
      analysesOf (settingOf settings policy.mode records frequencies) x >>= fun y =>
      .ok (y.1, resultOf settings thresholds frequencies x.2 y) := by
  rw [ofRecords_eq, hsession, hthresholds]
  rfl

/-- All undisturbed runs come to the same clusters. -/
theorem clustering_eq_of_undisturbed {run' after after' : AnalysisRun}
    {clustering clustering' : Clustering} (hrun : run.Undisturbed) (hrun' : run'.Undisturbed)
    (h : Clustering.ofPopulation finder policy records run = .ok (after, clustering))
    (h' : Clustering.ofPopulation finder policy records run' = .ok (after', clustering')) :
    clustering = clustering' := by
  have hstoppable := Clustering.stoppable_ofPopulation (α := ClusterAnalysis) finder policy records
  have hafter := ((hstoppable.continues h).undisturbed hrun).complete
  obtain ⟨reached, hreached⟩ := hstoppable.agrees hrun' h hafter
  exact (Prod.mk.inj (Except.ok.inj (hreached.symm.trans h'))).2

section Stages

variable (hsession : settings.session.check = .ok policy)
variable (hvalid : settings.detection.complaints = .ok [])
variable (hthresholds : settings.detection.check = .ok thresholds)
variable (hrun : run.Undisturbed)
include hsession hvalid hthresholds hrun

/-- Of the clusters nothing but a score can go wrong. -/
theorem outcome_of_clustering {after : AnalysisRun} {clustering : Clustering}
    (hfrequencies : Frequencies.ofRecords (analysed policy.mode records) = .ok frequencies)
    (hcountable : Frequencies.Countable (analysed policy.mode records))
    (hweighable : Clustering.Weighable policy (Clustering.chunksFor policy.mode records))
    (hplaceable : Clustering.Placeable policy (Clustering.chunksFor policy.mode records))
    (hclustering : Clustering.ofPopulation finder policy records run = .ok (after, clustering)) :
    Outcome finder policy thresholds records (ofRecords finder settings records run) := by
  have hmode : ∀ c ∈ clustering.clusters, c.mode = policy.mode := by
    intro c hc
    obtain ⟨kind, cs, hgathers⟩ := Clustering.exists_gathers finder policy hclustering hc
    exact hgathers.mode_eq
  have hafter := ((Clustering.stoppable_ofPopulation finder policy records).continues
    hclustering).undisturbed hrun
  rw [ofRecords_eq_of_checks hsession hthresholds, hfrequencies]
  change Outcome finder policy thresholds records
    (Clustering.ofPopulation finder policy records run >>= _)
  rw [hclustering]
  change Outcome finder policy thresholds records
    (analysesOf (settingOf settings policy.mode records frequencies) (after, clustering) >>= _)
  cases hanalyses : analysesOf (settingOf settings policy.mode records frequencies)
      (after, clustering) with
  | error failure =>
    obtain rfl := analysesOf_eq_error hvalid hanalyses
    refine .unscorable hweighable fun hfeasible => ?_
    obtain ⟨y, hy⟩ := exists_analysesOf (x := (after, clustering)) hvalid hthresholds frequencies
      hmode (hfeasible.scorable run after clustering hrun hclustering)
    cases hy.symm.trans hanalyses
  | ok y =>
    refine .result
      ⟨hcountable, hweighable, hplaceable, fun run' after' clustering' hrun' h' => ?_⟩ _
    obtain rfl := clustering_eq_of_undisturbed hrun hrun' hclustering h'
    exact scorable_of_analysesOf hthresholds hafter hmode hanalyses

variable (hexact : policy.strategy = .exact)
include hexact

/-- An analysis that nothing stops fails only for what it lacks. -/
theorem outcome_ofRecords :
    Outcome finder policy thresholds records (ofRecords finder settings records run) := by
  by_cases hcountable : Frequencies.Countable (analysed policy.mode records)
  · obtain ⟨frequencies, hfrequencies⟩ := Frequencies.exists_ofRecords hcountable
    have hfails {failure : Failure}
        (h : Clustering.ofPopulation finder policy records run = .error failure) :
        ofRecords finder settings records run = .error failure := by
      rw [ofRecords_eq_of_checks hsession hthresholds, hfrequencies]
      change Clustering.ofPopulation finder policy records run >>= _ = _
      rw [h]
      rfl
    obtain ⟨kind, hchunks⟩ := exists_chunksFor_eq policy.mode records
    have hmembers : ∀ k ∈ Clustering.chunksFor policy.mode records, k.members ≠ [] := by
      rw [hchunks]
      exact fun _ => Chunk.members_ne_nil
    have hnodup : ((Clustering.chunksFor policy.mode records).map (·.propertySet)).Nodup := by
      rw [hchunks]
      exact Chunk.nodup_propertySet_aggregate ..
    by_cases hweighable : Clustering.Weighable policy (Clustering.chunksFor policy.mode records)
    · by_cases hplaceable : Clustering.Placeable policy (Clustering.chunksFor policy.mode records)
      · obtain ⟨after, clustering, hclustering⟩ := Clustering.succeeds_ofPopulation_of_exact
          finder hsession hexact hweighable hplaceable run
        exact outcome_of_clustering hsession hvalid hthresholds hrun hfrequencies hcountable
          hweighable hplaceable hclustering
      · rw [hfails (Clustering.ofPopulation_eq_error finder hexact hrun
          (Clustering.joinedGroups_of_not_placeable hsession hmembers hnodup hweighable hplaceable))]
        exact .unplaceable hweighable hplaceable
    · obtain ⟨weight, oid, hjoined⟩ :=
        Clustering.joinedGroups_of_not_weighable hmembers hweighable
      rw [hfails (Clustering.ofPopulation_eq_error finder hexact hrun hjoined)]
      exact .unweighable hcountable hweighable weight oid
  · rw [ofRecords_eq_of_checks hsession hthresholds, Frequencies.ofRecords_eq_error hcountable]
    exact .uncountable hcountable

end Stages

/-! ### With worker threads -/

/-- Whatever the order of their steps, workers fail when the loop fails. -/
theorem exists_error_of_mayReturn (hrun : run.Undisturbed) {workers : Number}
    {result : Except Failure (AnalysisRun × Analysis)}
    (h : MayReturn finder settings workers records run result)
    (hloop : ofRecords finder settings records run = .error failure) :
    ∃ failure', result = .error failure' := by
  rw [ofRecords_eq_begin] at hloop
  unfold MayReturn at h
  cases hbegin : begin finder settings records run with
  | error e =>
    rw [hbegin] at h
    exact ⟨e, h⟩
  | ok b =>
    rw [hbegin] at h hloop
    obtain ⟨y, hy, rfl⟩ := h
    obtain ⟨hclustered, hids⟩ := undisturbed_of_begin hrun hbegin
    have hfails : analysesOf b.setting (b.run, b.clustering) = .error failure := by
      change b.finish settings (analysesOf b.setting (b.run, b.clustering)) = .error failure at hloop
      cases hanalyses : analysesOf b.setting (b.run, b.clustering) with
      | ok y =>
        rw [hanalyses] at hloop
        cases hloop
      | error e =>
        rw [hanalyses] at hloop
        rw [Except.error.inj hloop]
    unfold analysesOf at hfails
    unfold Begun.MayGive at hy
    split at hfails
    next => cases hfails
    next hsome =>
      rw [if_neg hsome] at hy
      rcases agrees_of_mayGive hids hclustered hy with
        ⟨after, after', analyses, hanalyses, -⟩ | ⟨e, e', -, rfl⟩
      · cases hanalyses.symm.trans hfails
      · exact ⟨e', rfl⟩

/-! ### Under valid settings -/

theorem settings_of_ofRecords {after : AnalysisRun} {a : Analysis}
    (h : ofRecords finder settings records run = .ok (after, a)) : a.settings = settings := by
  rw [ofRecords_eq] at h
  obtain ⟨policy, -, h⟩ := bind_eq_ok_iff.1 h
  obtain ⟨thresholds, -, h⟩ := bind_eq_ok_iff.1 h
  obtain ⟨frequencies, -, h⟩ := bind_eq_ok_iff.1 h
  obtain ⟨x, -, h⟩ := bind_eq_ok_iff.1 h
  obtain ⟨y, -, h⟩ := bind_eq_ok_iff.1 h
  obtain ⟨-, rfl⟩ := Prod.mk.inj (Except.ok.inj h)
  rfl

theorem exists_fields {room : ℕ} {a : Analysis} (h : a.settings.NestsWithin room) :
    ∃ fields, a.fields room = .ok fields := by
  unfold fields
  rw [Settings.copied_of_nestsWithin h]
  exact ⟨_, rfl⟩

theorem fields_eq_error {room : ℕ} {a : Analysis} (h : ¬ a.settings.NestsWithin room) :
    a.fields room = .error .nestedTooDeep := by
  unfold fields
  rw [Settings.copied_eq_error h]
  rfl

theorem ofSettings_eq (finder : CommunityFinder) (hvalid : settings.complaints = .ok [])
    (records : List Record) : ofSettings finder settings records =
      freshRun settings >>= ofRecords finder settings records := by
  unfold ofSettings Settings.ensureValid ensureNone
  rw [hvalid]
  rfl

theorem settings_of_ofSettings (hvalid : settings.complaints = .ok [])
    {x : AnalysisRun × Analysis} (h : ofSettings finder settings records = .ok x) :
    x.2.settings = settings := by
  rw [ofSettings_eq finder hvalid] at h
  obtain ⟨run, -, h⟩ := bind_eq_ok_iff.1 h
  exact settings_of_ofRecords h

theorem strategy_eq_exact (hsession : settings.session.check = .ok policy)
    (hexact : settings.session.clusteringMethod = .str "exact") : policy.strategy = .exact := by
  obtain ⟨-, -, -, word, hword, hstrategy⟩ :=
    Session.fields_of_policy? (Session.complaints_of_check hsession).2
  obtain rfl := Json.str.inj (hword.symm.trans hexact)
  exact (Option.some_inj.1 hstrategy).symm

/-- No run can poll at an infinite interval. -/
theorem ofSettings_eq_error (finder : CommunityFinder) (hvalid : settings.complaints = .ok [])
    (h : settings.runtime.progressInterval = .float (.infinite false)) (records : List Record) :
    ofSettings finder settings records = .error .numberTooLarge := by
  rw [ofSettings_eq finder hvalid, freshRun_eq_error h]
  rfl

theorem outcome_ofSettings (finder : CommunityFinder) (hvalid : settings.complaints = .ok [])
    (hexact : settings.session.clusteringMethod = .str "exact")
    (hsession : settings.session.check = .ok policy)
    (hthresholds : settings.detection.check = .ok thresholds)
    (h : settings.runtime.progressInterval ≠ .float (.infinite false)) (records : List Record) :
    Outcome finder policy thresholds records (ofSettings finder settings records) := by
  obtain ⟨run, hfresh, hrun⟩ := exists_freshRun hvalid h
  rw [ofSettings_eq finder hvalid, hfresh]
  exact outcome_ofRecords hsession (Settings.parts_of_complaints hvalid).2 hthresholds hrun
    (strategy_eq_exact hsession hexact)

theorem answer_eq (room : ℕ) (finder : CommunityFinder) (settings : Settings)
    (records : List Record) : answer room finder settings records =
      ofSettings finder settings records >>= fun x => x.2.fields room >>= fun fields =>
      .ok (.object fields) := rfl

theorem answered_answer {room : ℕ} (hvalid : settings.complaints = .ok [])
    (h : Outcome finder policy thresholds records (ofSettings finder settings records)) :
    Answered room finder policy thresholds settings records
      (answer room finder settings records) := by
  rw [answer_eq]
  cases hresult : ofSettings finder settings records with
  | error failure =>
    rw [hresult] at h
    exact .failed failure h
  | ok x =>
    have hfeasible := h.ok_iff.1 ⟨x, hresult⟩
    have hsettings := settings_of_ofSettings hvalid hresult
    change Answered room finder policy thresholds settings records (x.2.fields room >>= _)
    by_cases hroom : settings.NestsWithin room
    · obtain ⟨fields, hfields⟩ := exists_fields (hsettings ▸ hroom)
      rw [hfields]
      exact .shown hfeasible hroom _
    · rw [fields_eq_error (hsettings ▸ hroom)]
      exact .nestedTooDeep hfeasible hroom

/-- When every chunk is a group by itself, an analysis under valid settings has a result exactly if
its interval is not infinite, it is feasible, and there is room for a copy of the settings, however
many workers there are. Where it has none, the first thing that it lacks is what it fails on. Under
a whole number of clusters for each member all light populations are feasible: those of distinct
identities that together weigh less than doubles count and hold fewer properties than a machine word
counts. -/
theorem analysis_succeeds_iff_feasible (room : ℕ) (finder : CommunityFinder)
    (hvalid : settings.complaints = .ok [])
    (hexact : settings.session.clusteringMethod = .str "exact") (records : List Record) :
    ∃ policy thresholds, settings.session.check = .ok policy ∧
      settings.detection.check = .ok thresholds ∧
      ((∃ json, answer room finder settings records = .ok json) ↔
        settings.runtime.progressInterval ≠ .float (.infinite false) ∧
          Feasible finder policy thresholds records ∧ settings.NestsWithin room) ∧
      (settings.runtime.progressInterval = .float (.infinite false) →
        answer room finder settings records = .error .numberTooLarge) ∧
      (settings.runtime.progressInterval ≠ .float (.infinite false) →
        Answered room finder policy thresholds settings records
          (answer room finder settings records)) ∧
      (∀ (run : AnalysisRun) (workers : Number) (result : Except Failure (AnalysisRun × Analysis)),
        freshRun settings = .ok run → MayReturn finder settings workers records run result →
        ((∃ fields, (do (← result).2.fields room) = .ok fields) ↔
          Feasible finder policy thresholds records ∧ settings.NestsWithin room)) ∧
      ((∃ m, settings.session.maxClustersPerMember = .int m) → (records.map (·.oid)).Nodup →
        weightOf records < 2 ^ 53 → (heldProperties records).size < 2 ^ 63 →
        Feasible finder policy thresholds records) := by
  obtain ⟨hsessionValid, hdetection⟩ := Settings.parts_of_complaints hvalid
  obtain ⟨policy, hsession⟩ := Session.exists_check hsessionValid
  obtain ⟨thresholds, hthresholds, -⟩ := Detection.exists_check hdetection
  have hstrategy := strategy_eq_exact hsession hexact
  have houtcome {run : AnalysisRun} (hrun : run.Undisturbed) :
      Outcome finder policy thresholds records (ofRecords finder settings records run) :=
    outcome_ofRecords hsession hdetection hthresholds hrun hstrategy
  have hinfinite (h : settings.runtime.progressInterval = .float (.infinite false)) :
      answer room finder settings records = .error .numberTooLarge := by
    rw [answer_eq, ofSettings_eq_error finder hvalid h records]
    rfl
  have hends (h : settings.runtime.progressInterval ≠ .float (.infinite false)) :
      Answered room finder policy thresholds settings records
        (answer room finder settings records) :=
    answered_answer hvalid (outcome_ofSettings finder hvalid hexact hsession hthresholds h records)
  refine ⟨policy, thresholds, hsession, hthresholds, ?_, hinfinite, hends,
    fun run workers result hfresh hresult => ?_, fun hmax hoids hweight hsize => ?_⟩
  · by_cases h : settings.runtime.progressInterval = .float (.infinite false)
    · rw [hinfinite h]
      exact iff_of_false (by simp) fun hboth => hboth.1 h
    · exact (hends h).ok_iff.trans (and_iff_right h).symm
  · have hrun : run.Undisturbed := Run.undisturbed_of_ofInterval hfresh
    rw [← (houtcome hrun).ok_iff]
    cases hloop : ofRecords finder settings records run with
    | error failure =>
      obtain ⟨failure', rfl⟩ := exists_error_of_mayReturn hrun hresult hloop
      exact iff_of_false (fun ⟨_, hfields⟩ => by cases hfields) fun ⟨⟨_, hok⟩, _⟩ => by cases hok
    | ok x =>
      obtain ⟨after, rfl⟩ := eq_of_mayReturn hrun hresult hloop
      have hsettings := settings_of_ofRecords hloop
      by_cases hroom : settings.NestsWithin room
      · exact iff_of_true (exists_fields (hsettings ▸ hroom)) ⟨⟨x, rfl⟩, hroom⟩
      · refine iff_of_false ?_ fun hboth => hroom hboth.2
        change ¬ ∃ fields, x.2.fields room = .ok fields
        rw [fields_eq_error (hsettings ▸ hroom)]
        rintro ⟨_, ⟨⟩⟩
  · have hunwatched : (Run.unwatched : AnalysisRun).Undisturbed :=
      Run.undisturbed_unwatched
    obtain ⟨m, hm⟩ := hmax
    obtain ⟨after, a, ha⟩ := succeeds_ofRecords hweight hsize hoids hvalid hm (.inl hexact) finder
      Run.unwatched
    exact (houtcome hunwatched).ok_iff.1 ⟨_, ha⟩

theorem two_users_are_feasible : exactSettings.complaints = .ok [] ∧
    exactSettings.session.clusteringMethod = .str "exact" ∧
    (∃ m, exactSettings.session.maxClustersPerMember = .int m) ∧
    (Pattern.twoUsers.map (·.oid)).Nodup ∧ weightOf Pattern.twoUsers < 2 ^ 53 ∧
    (heldProperties Pattern.twoUsers).size < 2 ^ 63 ∧ exactSettings.NestsWithin stackRoom ∧
    ∃ json, answer stackRoom Community.best exactSettings Pattern.twoUsers = .ok json := by
  have hvalid : exactSettings.complaints = .ok [] := by decide +kernel
  have hmax : ∃ m, exactSettings.session.maxClustersPerMember = .int m := ⟨3, rfl⟩
  have hoids : (Pattern.twoUsers.map (·.oid)).Nodup := by decide
  have hweight : weightOf Pattern.twoUsers < 2 ^ 53 := by decide
  have hsize : (heldProperties Pattern.twoUsers).size < 2 ^ 63 := by decide +kernel
  have hroom : exactSettings.NestsWithin stackRoom := by
    unfold Settings.NestsWithin
    decide
  obtain ⟨policy, thresholds, -, -, hiff, -, -, -, hlight⟩ :=
    analysis_succeeds_iff_feasible stackRoom Community.best hvalid rfl Pattern.twoUsers
  exact ⟨hvalid, rfl, hmax, hoids, hweight, hsize, hroom,
    hiff.2 ⟨by simp [exactSettings], hlight hmax hoids hweight hsize, hroom⟩⟩

/-- Polling without end is valid, but no run can do it. -/
def neverPolling : Settings := { exactSettings with
  runtime := { progressInterval := .float (.infinite false) } }

theorem infinite_interval_has_no_result : neverPolling.complaints = .ok [] ∧
    neverPolling.session.clusteringMethod = .str "exact" ∧
    answer stackRoom Community.best neverPolling Pattern.twoUsers = .error .numberTooLarge := by
  have hvalid : neverPolling.complaints = .ok [] := by decide +kernel
  refine ⟨hvalid, rfl, ?_⟩
  rw [answer_eq, ofSettings_eq_error Community.best hvalid rfl Pattern.twoUsers]
  rfl

end Analysis

end RoleMining
