import Mathlib.Data.List.Perm.Subperm
import RoleMining.Proofs.Analysis.Agreement
import RoleMining.Proofs.Cluster.Success
import RoleMining.Proofs.Pool.Undisturbed
import RoleMining.Proofs.Validity

/-!
# Analyses succeed

A score multiplies what some users weigh by the number of some properties, so it is a double as long
as the users of the population do not weigh too much and do not hold too many properties. This holds
in either mode, since the members of a cluster and what they hold are part of the population. Every
other step of an analysis under valid settings has a result in any case.
-/
namespace RoleMining

/-! ### Parts of a population -/

theorem sum_map_le_of_subset {β : Type} {xs ys : List β} {f : β → ℤ} (hxs : xs.Nodup)
    (hsub : xs ⊆ ys) (hf : ∀ y ∈ ys, 0 ≤ f y) : (xs.map f).sum ≤ (ys.map f).sum := by
  obtain ⟨part, hperm, hpart⟩ := hxs.subperm hsub
  rw [← (hperm.map f).sum_eq]
  refine (hpart.map f).sum_le_sum fun n hn => ?_
  obtain ⟨y, hy, rfl⟩ := List.mem_map.1 hn
  exact hf y hy

section Parts

variable {records part : List Record}

/-- Records of distinct identities that weigh what they weigh in a population are not heavier. -/
theorem weightOf_le_of_part (hpart : (part.map (·.oid)).Nodup)
    (h : ∀ r ∈ part, ∃ r' ∈ records, r'.oid = r.oid ∧ r'.weight = r.weight) :
    weightOf part ≤ weightOf records := by
  have hpairs : (part.map fun r => (r.oid, r.weight)).Nodup := by
    refine List.Nodup.of_map Prod.fst ?_
    rwa [List.map_map]
  have hsub : (part.map fun r => (r.oid, r.weight)) ⊆ records.map fun r => (r.oid, r.weight) := by
    intro x hx
    obtain ⟨r, hr, rfl⟩ := List.mem_map.1 hx
    obtain ⟨r', hr', hoid, hweight⟩ := h r hr
    exact List.mem_map.2 ⟨r', hr', Prod.ext hoid hweight⟩
  have hle := sum_map_le_of_subset (f := Prod.snd) hpairs hsub fun x hx => by
    obtain ⟨r, -, rfl⟩ := List.mem_map.1 hx
    exact le_trans (by decide) r.positive
  rwa [List.map_map, List.map_map] at hle

theorem size_heldProperties_le (h : heldProperties part ⊆ heldProperties records) :
    (heldProperties part).size ≤ (heldProperties records).size :=
  ((heldProperties part).nodup_toList.subperm fun x hx => h x hx).length_le

/-- Some identities of a population do not weigh more than all of it. -/
theorem weighted_le_weightOf (hoids : (records.map (·.oid)).Nodup) {oids : IdSet}
    (h : ∀ x ∈ oids, ∃ r ∈ records, r.oid = x) :
    oids.weighted (weightIn (weightMap records).find?) ≤ weightOf records := by
  have hsub : oids.toList ⊆ records.map (·.oid) := fun x hx => List.mem_map.2 (h x hx)
  have hle := sum_map_le_of_subset oids.nodup_toList hsub
    (f := weightIn (weightMap records).find?) fun x _ => le_trans (by decide) (one_le_weightMap x)
  have hall : (records.map (·.oid)).map (weightIn (weightMap records).find?) =
      records.map (·.weight) := by
    rw [List.map_map]
    exact List.map_congr_left fun r hr => weightIn_weightMap hoids hr
  rw [hall] at hle
  rwa [IdSet.weighted_eq_sum_map]

theorem weighted_one_le_size (records : List Record) {ids : IdSet}
    (h : ids ⊆ heldProperties records) :
    ids.weighted (fun _ => (1 : ℤ)) ≤ (heldProperties records).size := by
  rw [← IdSet.weighted_one (heldProperties records)]
  exact IdSet.weighted_mono (fun _ _ => by decide) h

end Parts

/-! ### Scores -/

namespace Reference

variable {records : List Record}

/-- On the one axis there are the users of the records, on the other what they hold. -/
theorem weighted_mul_le (hoids : (records.map (·.oid)).Nodup) (mode : Mode)
    (thresholds : Thresholds) :
    (IdSet.ofList ((ofRecords mode records thresholds).chunks.flatMap (·.members))).weighted
        (ofRecords mode records thresholds).bodyWeight *
      (ofRecords mode records thresholds).population.weighted
        (ofRecords mode records thresholds).supportWeight ≤
      weightOf records * (heldProperties records).size := by
  have hr := consistent_ofRecords mode thresholds hoids
  have hdescribes := describes_ofRecords mode thresholds hoids
  have hmembers : 0 ≤ (IdSet.ofList ((ofRecords mode records thresholds).chunks.flatMap
      (·.members))).weighted (ofRecords mode records thresholds).bodyWeight :=
    IdSet.weighted_nonneg fun x hx => le_trans (by decide) (hr.one_le_bodyWeight x hx)
  have hpopulation : 0 ≤ (ofRecords mode records thresholds).population.weighted
      (ofRecords mode records thresholds).supportWeight :=
    IdSet.weighted_nonneg fun x hx => le_trans (by decide) (hr.one_le_supportWeight x hx)
  have hrelated {y : String} (hy : y ∈ (ofRecords mode records thresholds).population) :
      ∃ x, Related mode records x y := by
    obtain ⟨c, hc, hy⟩ := List.mem_flatMap.1 (IdSet.mem_ofList.1 hy)
    obtain ⟨x, hx⟩ := hdescribes.inhabited c hc
    exact ⟨x, (hdescribes.exact c hc x hx y).1 (IdSet.mem_ofList.2 hy)⟩
  have hlisted {x : String} (hx : x ∈ IdSet.ofList
      ((ofRecords mode records thresholds).chunks.flatMap (·.members))) :
      ∃ c ∈ (ofRecords mode records thresholds).chunks, x ∈ c.members :=
    List.mem_flatMap.1 (IdSet.mem_ofList.1 hx)
  -- the users weigh on the side of the supports in one mode, of the bodies in the other
  cases mode with
  | user =>
    have hbody := weighted_one_le_size records fun x hx => by
      obtain ⟨c, hc, hxc⟩ := hlisted hx
      obtain ⟨r, hr, rfl⟩ := (Chunk.mem_members_iff_of_mem_aggregate hc).1 hxc
      exact oid_mem_of_mem_invert (Chunk.mem_groupOf.1 hr).1
    have hsupport := weighted_le_weightOf hoids fun y hy => by
      obtain ⟨x, r, hr, hoid, -⟩ := hrelated hy
      exact ⟨r, hr, hoid⟩
    rw [mul_comm (weightOf records)]
    exact mul_le_mul hbody hsupport hpopulation (hmembers.trans hbody)
  | role =>
    have hbody := weighted_le_weightOf hoids fun x hx => by
      obtain ⟨c, hc, hxc⟩ := hlisted hx
      obtain ⟨r, hr, hoid⟩ := (Chunk.mem_members_iff_of_mem_aggregate hc).1 hxc
      exact ⟨r, (Chunk.mem_groupOf.1 hr).1, hoid⟩
    have hsupport := weighted_one_le_size records fun y hy => by
      obtain ⟨x, r, hr, -, hy⟩ := hrelated hy
      exact mem_heldProperties.2 ⟨r, hr, hy⟩
    exact mul_le_mul hbody hsupport hpopulation (hmembers.trans hbody)

end Reference

/-! ### The members of a cluster -/

namespace Mined

variable {α : Type} {mode : Mode} {detection : Detection} {weights : Ledger String ℤ}
variable {records members base : List Record}

/-- Of no pattern that there may be among members the score is too large for a double. -/
def Scorable (mode : Mode) (thresholds : Thresholds) (weights : Ledger String ℤ)
    (members : List Record) : Prop :=
  ∀ base, baseOf mode weights members = .ok base →
    ∀ S B, (Reference.ofRecords mode base thresholds).Supports S B →
      (Binary64.ofInt? (B.weighted (Reference.ofRecords mode base thresholds).bodyWeight *
        S.weighted (Reference.ofRecords mode base thresholds).supportWeight)).isSome = true

theorem exists_baseOf (hpositive : ∀ x, 1 ≤ weightIn weights.find? x) (mode : Mode)
    (members : List Record) : ∃ base, baseOf mode weights members = .ok base := by
  cases mode with
  | user => exact ⟨members, rfl⟩
  | role => exact exists_mapM_eq_ok fun property _ => ⟨_, dif_pos (hpositive property)⟩

/-- What is chunked weighs no more than the population and holds no more properties. -/
theorem bound_of_baseOf (hoids : (records.map (·.oid)).Nodup)
    (hmembers : (members.map (·.oid)).Nodup)
    (hsub : ∀ r ∈ members, r ∈ Analysis.analysed mode records)
    (h : baseOf mode (weightMap records) members = .ok base) :
    weightOf base * (heldProperties base).size ≤
      weightOf records * (heldProperties records).size := by
  have hbase := nodup_oid_baseOf hmembers h
  suffices hparts : weightOf base ≤ weightOf records ∧
      heldProperties base ⊆ heldProperties records from
    mul_le_mul hparts.1 (by exact_mod_cast size_heldProperties_le hparts.2) (by positivity)
      (weightOf_nonneg records)
  cases mode with
  | user =>
    cases h
    refine ⟨weightOf_le_of_part hbase fun r hr => ⟨r, hsub r hr, rfl, rfl⟩, fun x hx => ?_⟩
    obtain ⟨r, hr, hx⟩ := mem_heldProperties.1 hx
    exact mem_heldProperties.2 ⟨r, hsub r hr, hx⟩
  | role =>
    -- the roles are turned back into users, and each of these has a record in the population
    refine ⟨weightOf_le_of_part hbase fun r hr => ?_, fun x hx => ?_⟩
    · obtain ⟨user, huser, hmake⟩ := (mem_of_mapM_eq_ok h).1 hr
      obtain ⟨hoid, -, hweight⟩ := Record.make_eq_ok_iff.1 hmake
      obtain ⟨role, hrole, huser⟩ := mem_heldProperties.1 huser
      have hholds : Record.Holds (invert records) role.oid user :=
        ⟨role, hsub role hrole, rfl, huser⟩
      obtain ⟨r', hr', rfl, -⟩ := holds_invert_iff.1 hholds
      exact ⟨r', hr', hoid.symm, (weightIn_weightMap hoids hr').symm.trans hweight.symm⟩
    · obtain ⟨r, hr, hx⟩ := mem_heldProperties.1 hx
      obtain ⟨role, hrole, rfl, -⟩ := (holds_invertWeighted_iff h).1 ⟨r, hr, rfl, hx⟩
      exact oid_mem_of_mem_invert (hsub role hrole)

theorem scorable_of_lt (hoids : (records.map (·.oid)).Nodup)
    (hbound : weightOf records * (heldProperties records).size < 2 ^ 1023)
    (hmembers : (members.map (·.oid)).Nodup)
    (hsub : ∀ r ∈ members, r ∈ Analysis.analysed mode records) (thresholds : Thresholds) :
    Scorable mode thresholds (weightMap records) members := by
  intro base hbase S B hS
  have hbaseOids := nodup_oid_baseOf hmembers hbase
  have hle := Reference.weighted_mul_le hbaseOids mode thresholds
  have hlt := (bound_of_baseOf hoids hmembers hsub hbase).trans_lt hbound
  exact Reference.score_fits (Reference.consistent_ofRecords mode thresholds hbaseOids)
    (hle.trans_lt hlt) hS

/-- Members are mined on any run as long as no score is too large. -/
theorem succeeds_ofMembers (hvalid : detection.complaints = .ok []) {thresholds : Thresholds}
    (hthresholds : detection.check = .ok thresholds) (frequencies : Frequencies)
    (hpositive : ∀ x, 1 ≤ weightIn weights.find? x) (hmembers : (members.map (·.oid)).Nodup)
    (hscorable : Scorable mode thresholds weights members) :
    Succeeds (ofMembers mode detection (some frequencies) weights members :
      Run α → Except Failure (Run α × Mined)) := by
  obtain ⟨base, hbase⟩ := exists_baseOf hpositive mode members
  have hr := Reference.consistent_ofRecords mode thresholds (nodup_oid_baseOf hmembers hbase)
  have hchunks := (chunksOf_eq mode weights members thresholds).trans
    (bind_eq_ok_iff.2 ⟨base, hbase, rfl⟩)
  rw [funext fun run => ofMembers_eq mode detection frequencies weights members run]
  refine .afterComputing (Detection.exists_limits hvalid) fun limits _ => ?_
  refine .afterComputing ⟨_, hchunks⟩ fun chunks hof => ?_
  refine .afterComputing ⟨_, hthresholds⟩ fun checked hcheck => ?_
  obtain rfl := Except.ok.inj (hchunks.symm.trans hof)
  obtain rfl := Except.ok.inj (hthresholds.symm.trans hcheck)
  intro run
  obtain ⟨after, found, hfound⟩ := Reference.exists_detect hr mode
    (Intersection.extract limits frequencies members run).1 (hscorable base hbase)
  rw [Reference.detect_ofRecords] at hfound
  exact ⟨_, _, bind_eq_ok_iff.2 ⟨_, rfl, bind_eq_ok_iff.2 ⟨(after, found), hfound, rfl⟩⟩⟩

end Mined

/-- Of no pattern that there may be in a cluster the score is too large for a double. -/
def Cluster.Scorable (thresholds : Thresholds) (records : List Record) (c : Cluster) : Prop :=
  Mined.Scorable c.mode thresholds (weightMap records)
    (c.memberRecords (Analysis.analysed c.mode records))

theorem Cluster.nodup_oid_memberRecords (c : Cluster) (records : List Record) :
    ((c.memberRecords records).map (·.oid)).Nodup :=
  (Mined.oid_membersOf_sublist records c.members.toList).nodup c.members.nodup_toList

/-! ### The analysis -/

namespace Analysis

variable {setting : Setting} {settings : Settings} {records : List Record} {policy : Policy}
variable {thresholds : Thresholds}
variable {clusters : List Cluster}

/-- The loop over the clusters goes on as long as each of them can be analysed. -/
theorem exists_analyzeClusters (h : ∀ c ∈ clusters, Succeeds (analyzeCluster setting c))
    (total done : ℕ) (finished : List ClusterAnalysis) (run : AnalysisRun) :
    ∃ after analyses,
      analyzeClusters setting total done run finished clusters = .ok (after, analyses) := by
  induction clusters generalizing done finished run with
  | nil => exact ⟨run, finished, rfl⟩
  | cons c clusters ih =>
    cases hrun : run.cancelled with
    | true => exact ⟨_, _, analyzeClusters_cons_of_cancelled hrun⟩
    | false =>
      obtain ⟨mid, a, ha⟩ := h c List.mem_cons_self run
      rw [analyzeClusters_cons hrun, ha]
      change ∃ after analyses, (if (advance total (done + 1) (mid, a)).cancelled then _ else
        analyzeClusters setting total (done + 1) (advance total (done + 1) (mid, a))
          (finished ++ [a]) clusters) = .ok (after, analyses)
      split
      next => exact ⟨_, _, rfl⟩
      next => exact ih (fun c' hc' => h c' (List.mem_cons_of_mem c hc')) _ _ _

theorem succeeds_analyzeCluster (hvalid : settings.detection.complaints = .ok [])
    (hthresholds : settings.detection.check = .ok thresholds) (frequencies : Frequencies)
    {c : Cluster} (hscorable : c.Scorable thresholds records) :
    Succeeds (analyzeCluster (settingOf settings c.mode records frequencies) c) := by
  have hmined := Mined.succeeds_ofMembers (α := ClusterAnalysis) hvalid hthresholds frequencies
    one_le_weightMap (c.nodup_oid_memberRecords _) hscorable
  exact hmined.andThen fun mined => .pure ({ cluster := c, mined } : ClusterAnalysis)

theorem exists_analysesOf (hvalid : settings.detection.complaints = .ok [])
    (hthresholds : settings.detection.check = .ok thresholds) (frequencies : Frequencies)
    {mode : Mode} {x : AnalysisRun × Clustering} (hmode : ∀ c ∈ x.2.clusters, c.mode = mode)
    (hscorable : ∀ c ∈ x.2.clusters, c.Scorable thresholds records) :
    ∃ y, analysesOf (settingOf settings mode records frequencies) x = .ok y := by
  unfold analysesOf
  split
  next => exact ⟨_, rfl⟩
  next =>
    have hall : ∀ c ∈ x.2.clusters,
        Succeeds (analyzeCluster (settingOf settings mode records frequencies) c) :=
      fun c hc => hmode c hc ▸
        succeeds_analyzeCluster hvalid hthresholds frequencies (hscorable c hc)
    obtain ⟨after, analyses, hanalyses⟩ :=
      exists_analyzeClusters hall x.2.clusters.length 0 [] x.1
    exact ⟨_, hanalyses⟩

section Population

variable (hweight : weightOf records < 2 ^ 53) (hsize : (heldProperties records).size < 2 ^ 63)
include hweight hsize

theorem weightOf_analysed_lt (mode : Mode) : weightOf (analysed mode records) < 2 ^ 63 := by
  cases mode with
  | user => exact hweight.trans (by norm_num)
  | role =>
    have hones : (invert records).map (·.weight) =
        List.replicate (heldProperties records).size 1 := by
      rw [invert, List.map_map]
      exact List.map_const' ..
    change ((invert records).map (·.weight)).sum < 2 ^ 63
    rw [hones, List.sum_replicate, nsmul_one]
    exact_mod_cast hsize

theorem exists_frequencies (mode : Mode) :
    ∃ frequencies, Frequencies.ofRecords (analysed mode records) = .ok frequencies := by
  cases mode with
  | user => exact ⟨_, Frequencies.ofRecords_eq hweight⟩
  | role =>
    exact Frequencies.exists_ofRecords_of_ones (fun _ => weight_of_mem_invert)
      (by rwa [analysed, invert, List.length_map])

theorem mul_size_lt : weightOf records * (heldProperties records).size < 2 ^ 1023 := by
  have hle : weightOf records * (heldProperties records).size ≤ 2 ^ 53 * 2 ^ 63 :=
    mul_le_mul hweight.le (by exact_mod_cast hsize.le) (by positivity) (by positivity)
  rw [← pow_add] at hle
  exact hle.trans_lt (pow_lt_pow_right₀ (by norm_num) (by norm_num))

variable (hoids : (records.map (·.oid)).Nodup)
include hoids

theorem scorable_cluster (thresholds : Thresholds) (c : Cluster) : c.Scorable thresholds records :=
  Mined.scorable_of_lt hoids (mul_size_lt hweight hsize) (c.nodup_oid_memberRecords _)
    (fun _ hr => (Mined.mem_membersOf hr).1) thresholds

/-- Under valid settings an analysis has a result on every run. What it needs is a whole number of
clusters for each member, and a seed that the search for communities accepts, if there is one. -/
theorem succeeds_ofRecords (hvalid : settings.complaints = .ok []) {m : ℤ}
    (hmax : settings.session.maxClustersPerMember = .int m)
    (hseed : settings.session.clusteringMethod = .str "exact" ∨
      Community.checkSeed settings.session.randomSeed = .ok ()) (finder : CommunityFinder) :
    Succeeds (ofRecords finder settings records) := by
  obtain ⟨hsession, hdetection⟩ := Settings.parts_of_complaints hvalid
  obtain ⟨policy, hpolicy⟩ := Session.exists_check hsession
  obtain ⟨thresholds, hthresholds, -⟩ := Detection.exists_check hdetection
  obtain ⟨-, hclusters, hpolicySeed, word, hword, hstrategy⟩ :=
    Session.fields_of_policy? (Session.complaints_of_check hpolicy).2
  have hmost : policy.maxClusters = .int m := by
    rw [hmax] at hclusters
    exact (Option.some_inj.1 hclusters).symm
  have haccepted : Clustering.SeedAccepted policy := by
    intro hcommunities
    rcases hseed with hexact | hseed
    · obtain rfl := Json.str.inj (hword.symm.trans hexact)
      rw [hcommunities] at hstrategy
      cases hstrategy
    · rw [hpolicySeed]
      exact hseed
  intro run
  obtain ⟨mid, clustering, hclustering⟩ := Clustering.succeeds_ofPopulation hpolicy hmost haccepted
    (fun _ => hoids) (weightOf_analysed_lt hweight hsize policy.mode) finder run
  have hmode : ∀ c ∈ clustering.clusters, c.mode = policy.mode := by
    intro c hc
    obtain ⟨kind, cs, hgathers⟩ := Clustering.exists_gathers finder policy hclustering hc
    exact hgathers.mode_eq
  obtain ⟨frequencies, hfrequencies⟩ := exists_frequencies hweight hsize policy.mode
  obtain ⟨y, hy⟩ : ∃ y, analysesOf (settingOf settings policy.mode records frequencies)
      (mid, clustering) = .ok y :=
    exists_analysesOf hdetection hthresholds frequencies hmode
      fun c _ => scorable_cluster hweight hsize hoids thresholds c
  exact ⟨_, _, ofRecords_eq_ok_iff.2 ⟨policy, thresholds, frequencies, (mid, clustering), y,
    ⟨hpolicy, hthresholds, hfrequencies, hclustering, hy⟩, rfl, rfl⟩⟩

end Population

end Analysis
end RoleMining
