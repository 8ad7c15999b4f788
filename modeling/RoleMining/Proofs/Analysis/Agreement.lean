import RoleMining.Proofs.Analysis.Completion
import RoleMining.Proofs.Cluster.Accounting
import RoleMining.Proofs.Cluster.Members
import RoleMining.Proofs.Pool.Pipeline

/-!
# The two ways of mining agree

Shared sets are weighed by a scan of the members' records; the support of a pattern comes from
chunks of the other axis and the weights kept beside them. Both tell what the members weigh that
have certain properties: in either mode the chunks describe one relation, that of the members'
records. A completed analysis may be taken for that of an undisturbed run without worker threads.
-/
namespace RoleMining

/-! ### The best score -/

namespace Pattern

/-- The best score is that of some pattern, and no pattern has a better one. -/
structure IsBestScore (patterns : List Pattern) (best : Binary64) : Prop where
  attained : ∃ p ∈ patterns, p.score = best
  greatest : ∀ p ∈ patterns, p.score.value ≤ best.value

theorem foldl_best {patterns : List Pattern} {start : Binary64} (hstart : start.isFinite = true)
    (hfinite : ∀ p ∈ patterns, p.score.isFinite = true) :
    let best := patterns.foldl (fun best p => if best.below p.score then p.score else best) start
    (best = start ∨ ∃ p ∈ patterns, p.score = best) ∧ start.value ≤ best.value ∧
      ∀ p ∈ patterns, p.score.value ≤ best.value := by
  induction patterns generalizing start with
  | nil => simp
  | cons p patterns ih =>
    intro best
    have hp := hfinite p List.mem_cons_self
    have hrest : ∀ q ∈ patterns, q.score.isFinite = true :=
      fun q hq => hfinite q (List.mem_cons_of_mem _ hq)
    cases hbelow : start.below p.score with
    | true =>
      have hlt := (Binary64.below_iff_of_finite hstart hp).1 hbelow
      have hbest : best = patterns.foldl
          (fun best p => if best.below p.score then p.score else best) p.score := by
        simp [best, hbelow]
      obtain ⟨hattained, hge, hall⟩ := ih hp hrest
      rw [← hbest] at hattained hge hall
      refine ⟨.inr ?_, hlt.le.trans hge, List.forall_mem_cons.2 ⟨hge, hall⟩⟩
      rcases hattained with he | ⟨q, hq, he⟩
      · exact ⟨p, List.mem_cons_self, he.symm⟩
      · exact ⟨q, List.mem_cons_of_mem _ hq, he⟩
    | false =>
      have hle : p.score.value ≤ start.value :=
        not_lt.1 fun hlt => by simp [(Binary64.below_iff_of_finite hstart hp).2 hlt] at hbelow
      have hbest : best = patterns.foldl
          (fun best p => if best.below p.score then p.score else best) start := by
        simp [best, hbelow]
      obtain ⟨hattained, hge, hall⟩ := ih hstart hrest
      rw [← hbest] at hattained hge hall
      refine ⟨hattained.imp_right ?_, hge, List.forall_mem_cons.2 ⟨hle.trans hge, hall⟩⟩
      exact fun ⟨q, hq, he⟩ => ⟨q, List.mem_cons_of_mem _ hq, he⟩

theorem isBestScore_reductionMetric {patterns : List Pattern} (hne : patterns ≠ [])
    (hfinite : ∀ p ∈ patterns, p.score.isFinite = true) :
    IsBestScore patterns (reductionMetric patterns) := by
  cases patterns with
  | nil => exact absurd rfl hne
  | cons first rest =>
    obtain ⟨hattained, hge, hall⟩ := foldl_best (hfinite first List.mem_cons_self)
      fun p hp => hfinite p (List.mem_cons_of_mem _ hp)
    refine ⟨?_, List.forall_mem_cons.2 ⟨hge, hall⟩⟩
    rcases hattained with he | ⟨p, hp, he⟩
    · exact ⟨first, List.mem_cons_self, he.symm⟩
    · exact ⟨p, List.mem_cons_of_mem _ hp, he⟩

end Pattern

/-! ### Both searches see one relation -/

section Relation

variable {records base : List Record} {weights : Ledger String ℤ} {x y : String}

theorem holds_invertWeighted_iff (h : invertWeighted weights records = .ok base) :
    Record.Holds base x y ↔ Record.Holds records y x := by
  constructor
  · intro hholds
    obtain ⟨r, hr, rfl, hy⟩ := hholds
    obtain ⟨property, -, hmake⟩ := (mem_of_mapM_eq_ok h).1 hr
    obtain ⟨hoid, hproperties, -⟩ := Record.make_eq_ok_iff.1 hmake
    rw [hproperties, mem_holders_iff, ← hoid] at hy
    exact hy
  · intro hholds
    obtain ⟨r, hr, -, hx⟩ := id hholds
    obtain ⟨made, hmade, hmake⟩ :=
      exists_of_mem_of_mapM_eq_ok h (mem_heldProperties.2 ⟨r, hr, hx⟩)
    obtain ⟨hoid, hproperties, -⟩ := Record.make_eq_ok_iff.1 hmake
    refine ⟨made, hmade, hoid, ?_⟩
    rw [hproperties, mem_holders_iff]
    exact hholds

end Relation

namespace Mined

variable {mode : Mode} {members base : List Record} {weights : Ledger String ℤ}

/-- In either mode a body is related to what it is held by. -/
theorem related_baseOf (h : baseOf mode weights members = .ok base) {x y : String} :
    Reference.Related mode base x y ↔ Record.Holds members y x := by
  cases mode with
  | user =>
    cases h
    rfl
  | role => exact holds_invertWeighted_iff h

/-- Members of the chunks that patterns are looked for in are held by some record. -/
theorem mem_heldProperties_of_chunk (h : baseOf mode weights members = .ok base)
    {thresholds : Thresholds} {c : Chunk}
    (hc : c ∈ (Reference.ofRecords mode base thresholds).chunks) {x : String} (hx : x ∈ c.members) :
    x ∈ heldProperties members := by
  cases mode with
  | user =>
    cases h
    obtain ⟨r, hr, rfl⟩ := (Chunk.mem_members_iff_of_mem_aggregate hc).1 hx
    obtain ⟨property, hproperty, rfl⟩ := List.mem_map.1 (Chunk.mem_groupOf.1 hr).1
    exact hproperty
  | role =>
    obtain ⟨r, hr, rfl⟩ := (Chunk.mem_members_iff_of_mem_aggregate hc).1 hx
    obtain ⟨property, hproperty, hmake⟩ := (mem_of_mapM_eq_ok h).1 (Chunk.mem_groupOf.1 hr).1
    rw [(Record.make_eq_ok_iff.1 hmake).1]
    exact hproperty

/-- Supports weigh what the records of the members weigh: roles weigh one each. -/
theorem supportWeight_baseOf (hmembers : (members.map (·.oid)).Nodup)
    (hone : mode = .role → ∀ r ∈ members, r.weight = 1)
    (h : baseOf mode weights members = .ok base) (thresholds : Thresholds) {r : Record}
    (hr : r ∈ members) :
    (Reference.ofRecords mode base thresholds).supportWeight r.oid = r.weight := by
  cases mode with
  | user =>
    cases h
    exact weightIn_weightMap hmembers hr
  | role => exact (hone rfl r hr).symm

/-- What mining finds among members, told by their records alone. -/
structure Agrees (mode : Mode) (members : List Record) (mined : Mined) : Prop where
  intersections : ∀ i ∈ mined.intersections,
    i.support = Intersection.supportOf members i.properties ∧
    i.weight = i.support * i.properties.size ∧ ∃ r ∈ members, i.properties ⊆ r.properties
  patterns : ∀ p ∈ mined.patterns,
    p.support = Intersection.supportOf members p.properties ∧
    p.members ⊆ .ofList (members.map (·.oid)) ∧ p.properties ⊆ heldProperties members
  scores : mode = .user → ∀ p ∈ mined.patterns,
    Binary64.ofInt? (p.support * p.properties.size) = some p.score
  finite : ∀ p ∈ mined.patterns, p.score.isFinite = true
  metric_eq : mined.reductionMetric = Pattern.reductionMetric mined.patterns

/-- A shared set is held by its members' records, and weighs what they weigh. -/
theorem intersection_agrees {α : Type} {limits : Intersection.Limits} {frequencies : Frequencies}
    {run after : Run α} {found : List Intersection}
    (h : Intersection.extract limits frequencies members run = (after, found))
    (hafter : after.cancelled = false) {i : Intersection} (hi : i ∈ found) :
    i.support = Intersection.supportOf members i.properties ∧
      i.weight = i.support * i.properties.size ∧ ∃ r ∈ members, i.properties ⊆ r.properties := by
  obtain ⟨⟨-, n, hlow, -, hmeet⟩, -, hweigh⟩ := (Intersection.mem_extract_iff h hafter).1 hi
  obtain ⟨k, rfl⟩ := Nat.exists_eq_add_of_le' (le_trans (by omega : 1 ≤ 2) hlow)
  obtain ⟨s, hs, hsub⟩ := hmeet.exists_superset
  obtain ⟨r, hr, rfl⟩ := List.mem_map.1 hs
  refine ⟨congrArg Intersection.support hweigh, ?_, r, hr, fun x hx => ?_⟩
  · rw [hweigh]
    rfl
  · exact (IdSet.mem_filter.1 (hsub x hx)).1

section Patterns

variable {α : Type} {thresholds : Thresholds} {run after : Run α} {found : List Pattern}
variable {p : Pattern}
variable (hmembers : (members.map (·.oid)).Nodup)
variable (hbase : baseOf mode weights members = .ok base)
variable (h : Pattern.detect mode thresholds (Reference.ofRecords mode base thresholds).chunks run =
  .ok (after, found))
variable (hafter : after.cancelled = false) (hp : p ∈ found)
include hmembers hbase h hafter hp

theorem isPattern_of_mem : (Reference.ofRecords mode base thresholds).IsPattern mode p := by
  have hoids := nodup_oid_baseOf hmembers hbase
  have hr := Reference.consistent_ofRecords mode thresholds hoids
  rw [← Reference.detect_ofRecords] at h
  exact (Reference.mem_detect_iff hr h hafter).1 hp

/-- The members of a pattern are those whose records have all of its properties. -/
theorem mem_members_iff {y : String} :
    y ∈ p.members ↔ ∃ r ∈ members, r.oid = y ∧ p.properties ⊆ r.properties := by
  have hoids := nodup_oid_baseOf hmembers hbase
  have hdescribes := Reference.describes_ofRecords mode thresholds hoids
  have hfinding := (isPattern_of_mem hmembers hbase h hafter hp).finding
  have hsome := hfinding.candidate.exists_mem_body hdescribes hfinding.body
  rw [hfinding.candidate.mem_iff hdescribes hfinding.body]
  simp only [related_baseOf hbase]
  exact Record.forall_holds_iff hmembers hsome

theorem pattern_agrees (hone : mode = .role → ∀ r ∈ members, r.weight = 1) :
    p.support = Intersection.supportOf members p.properties ∧
      p.members ⊆ .ofList (members.map (·.oid)) ∧ p.properties ⊆ heldProperties members := by
  have hpattern := isPattern_of_mem hmembers hbase h hafter hp
  have hholders (y : String) : y ∈ p.members ↔
      ∃ r ∈ members, r.oid = y ∧ p.properties ⊆ r.properties :=
    mem_members_iff hmembers hbase h hafter hp
  refine ⟨?_, fun y hy => ?_, fun x hx => ?_⟩
  · rw [hpattern.support_eq, Intersection.supportOf_eq_sum]
    exact Reference.weighted_eq_sum_of_weight hmembers
      (fun r hr => supportWeight_baseOf hmembers hone hbase thresholds hr) hholders
  · obtain ⟨r, hr, rfl, -⟩ := (hholders y).1 hy
    exact IdSet.mem_ofList.2 (List.mem_map_of_mem hr)
  · obtain ⟨c, hc, -, hxc⟩ := (hpattern.finding.body x).1 hx
    exact mem_heldProperties_of_chunk hbase (List.mem_of_mem_filter hc) hxc

/-- Among users a pattern scores its support times its size. -/
theorem score_of_user (huser : mode = .user) :
    Binary64.ofInt? (p.support * p.properties.size) = some p.score := by
  have hpattern := isPattern_of_mem hmembers hbase h hafter hp
  subst huser
  have hsize : p.properties.weighted (Reference.ofRecords .user base thresholds).bodyWeight =
      p.properties.size := IdSet.weighted_one p.properties
  have hscore := hpattern.score_eq
  rwa [hsize, ← hpattern.support_eq, mul_comm] at hscore

theorem isFinite_score : p.score.isFinite = true :=
  Binary64.isFinite_of_ofInt? (isPattern_of_mem hmembers hbase h hafter hp).score_eq

end Patterns

theorem agrees_ofMembers {α : Type} {run after : Run α} {detection : Detection}
    {frequencies : Frequencies} {mined : Mined} (hrun : run.Undisturbed)
    (hmembers : (members.map (·.oid)).Nodup)
    (hone : mode = .role → ∀ r ∈ members, r.weight = 1)
    (h : ofMembers mode detection (some frequencies) weights members run = .ok (after, mined)) :
    Agrees mode members mined := by
  rw [ofMembers_eq] at h
  obtain ⟨limits, -, h⟩ := bind_eq_ok_iff.1 h
  obtain ⟨chunks, hchunks, h⟩ := bind_eq_ok_iff.1 h
  obtain ⟨thresholds, -, h⟩ := bind_eq_ok_iff.1 h
  obtain ⟨⟨mid, intersections⟩, hextract, h⟩ := bind_eq_ok_iff.1 h
  obtain ⟨⟨last, patterns⟩, hdetect, h⟩ := bind_eq_ok_iff.1 h
  obtain ⟨rfl, rfl⟩ := Prod.mk.inj (Except.ok.inj h)
  rw [chunksOf_eq mode weights members thresholds] at hchunks
  obtain ⟨base, hbase, hof⟩ := bind_eq_ok_iff.1 hchunks
  obtain rfl := Except.ok.inj hof
  have hextract := Except.ok.inj hextract
  have hmid : mid.Undisturbed := by
    have hsettles := Intersection.settles_extract limits frequencies members run
    rw [hextract] at hsettles
    exact hsettles.undisturbed hrun
  have hoids := nodup_oid_baseOf hmembers hbase
  have hlast : last.cancelled = false := by
    have hr := Reference.consistent_ofRecords mode thresholds hoids
    exact Reference.cancelled_detect hr hmid.toUnhindered
      ((Reference.detect_ofRecords ..).trans hdetect)
  exact {
    intersections := fun i hi => intersection_agrees hextract hmid.running hi
    patterns := fun p hp => pattern_agrees hmembers hbase hdetect hlast hp hone
    scores := fun huser p hp => score_of_user hmembers hbase hdetect hlast hp huser
    finite := fun p hp => isFinite_score hmembers hbase hdetect hlast hp
    metric_eq := rfl }

end Mined

/-! ### Clusters of an analysis -/

namespace Analysis

variable {setting : Setting} {records : List Record} {full reached run after : AnalysisRun}
variable {total done : ℕ} {finished analyses : List ClusterAnalysis} {clusters : List Cluster}
variable {e : ClusterAnalysis}

/-- Every entry of an undisturbed run is the analysis of a cluster by an undisturbed run. -/
theorem exists_analyzeCluster_of_mem (hsetting : setting.records = Record.directory records)
    (hfull : full.Undisturbed)
    (h : analyzeClusters setting total done full finished clusters = .ok (reached, analyses))
    (he : e ∈ analyses) : e ∈ finished ∨ e.cluster ∈ clusters ∧ ∃ r after : AnalysisRun,
      r.Undisturbed ∧ analyzeCluster setting e.cluster r = .ok (after, e) := by
  induction clusters generalizing full done finished with
  | nil =>
    obtain ⟨-, rfl⟩ := Prod.mk.inj (Except.ok.inj h)
    exact .inl he
  | cons cluster clusters ih =>
    obtain ⟨⟨mid, a⟩, hcluster, -⟩ :=
      bind_eq_ok_iff.1 ((analyzeClusters_cons hfull.running).symm.trans h)
    obtain ⟨hnext, hgoes⟩ := analyzeClusters_cons_of_undisturbed hsetting hfull hcluster
    rw [hgoes] at h
    rcases ih hnext h with hfinished | ⟨hmem, hanalysis⟩
    · rcases List.mem_append.1 hfinished with hbefore | hlast
      · exact .inl hbefore
      · obtain rfl := List.mem_singleton.1 hlast
        have hsame := cluster_of_analyzeCluster hcluster
        rw [hsame]
        exact .inr ⟨List.mem_cons_self, full, mid, hfull, hcluster⟩
    · exact .inr ⟨List.mem_cons_of_mem _ hmem, hanalysis⟩

section Entries

variable {finder : CommunityFinder} {settings : Settings} {policy : Policy}
variable {thresholds : Thresholds} {frequencies : Frequencies}
variable {x : AnalysisRun × Clustering} {y : AnalysisRun × List ClusterAnalysis}

variable (h : Stages finder settings records full policy thresholds frequencies x y)
include h

/-- Clusters gather chunks of the records that are analysed. -/
theorem Stages.exists_gathers {c : Cluster} (hc : c ∈ x.2.clusters) : ∃ kind cs,
    c.Gathers policy.mode (Chunk.aggregate kind .empty (analysed policy.mode records)) cs :=
  Clustering.exists_gathers finder policy h.clustering_eq hc

/-- An entry of an undisturbed run tells what was found among the members of its cluster. -/
theorem Stages.agrees_entry (hoids : (records.map (·.oid)).Nodup) (hfull : full.Undisturbed)
    (he : e ∈ y.2) :
    e.cluster ∈ x.2.clusters ∧ Mined.Agrees policy.mode
      (e.cluster.memberRecords (analysed policy.mode records)) e.mined := by
  rcases analysesOf_cases h.analyses_eq with ⟨-, hnone⟩ | ⟨-, -, hanalysed⟩
  · rw [hnone] at he
    cases he
  · have hmid := h.continues_clustered.undisturbed hfull
    rcases exists_analyzeCluster_of_mem rfl hmid hanalysed he with hnone | ⟨hmem, r, after, hr, hof⟩
    · cases hnone
    · obtain ⟨kind, cs, hgathers⟩ := h.exists_gathers hmem
      have hoids' := nodup_oid_analysed fun _ : policy.mode = .user => hoids
      obtain ⟨⟨mid, mined⟩, hmined, hentry⟩ := bind_eq_ok_iff.1 hof
      have hmined' : mined = e.mined := congrArg ClusterAnalysis.mined
        (Prod.mk.inj (Except.ok.inj hentry)).2
      rw [hgathers.mode_eq, hmined'] at hmined
      refine ⟨hmem, Mined.agrees_ofMembers hr ?_ ?_ hmined⟩
      · rw [hgathers.oid_memberRecords hoids']
        exact e.cluster.members.nodup_toList
      · intro hrole r hmember
        have hrecord := (Mined.mem_membersOf hmember).1
        rw [hrole] at hrecord
        exact weight_of_mem_invert hrecord

end Entries

/-- The two ways in which the members of a cluster are mined agree. In every entry of an analysis
that was completed, by the loop or by any number of worker threads, each member of the cluster has
its record in the directory, a pattern and a shared set with the same properties have the same
support, and among users the pattern scores what the shared set weighs. Both stay within the members
and the properties of the cluster, and the metric is the best score. No support passes the member
count, unless the members of one chunk weigh more together than a machine word holds. -/
theorem mining_paths_agree (finder : CommunityFinder) (settings : Settings) {records : List Record}
    (hoids : (records.map (·.oid)).Nodup) {run after : AnalysisRun} {a : Analysis}
    (h : ofRecords finder settings records run = .ok (after, a) ∨
      ∃ workers, MayReturn finder settings workers records run (.ok (after, a)))
    (hcompleted : statusName a.aborted = "completed") :
    ∃ policy, settings.session.check = .ok policy ∧ ∀ e ∈ a.clusters,
      (e.cluster.memberRecords (analysed policy.mode records)).map (·.oid) =
        e.cluster.members.toList ∧
      (∀ p ∈ e.mined.patterns, ∀ i ∈ e.mined.intersections, p.properties = i.properties →
        p.support = i.support ∧
        (policy.mode = .user → Binary64.ofInt? i.weight = some p.score)) ∧
      ((∀ r ∈ e.cluster.memberRecords (analysed policy.mode records),
          ((Chunk.groupOf (analysed policy.mode records) r.properties).map (·.weight)).sum <
            2 ^ 63) →
        (∀ i ∈ e.mined.intersections, i.support ≤ e.cluster.statistics.membersCount) ∧
        ∀ p ∈ e.mined.patterns, p.support ≤ e.cluster.statistics.membersCount) ∧
      (∀ p ∈ e.mined.patterns,
        p.members ⊆ e.cluster.members ∧ p.properties ⊆ e.cluster.properties) ∧
      (∀ i ∈ e.mined.intersections, i.properties ⊆ e.cluster.properties) ∧
      (e.mined.patterns = [] → e.mined.reductionMetric = 0) ∧
      (e.mined.patterns ≠ [] →
        Pattern.IsBestScore e.mined.patterns e.mined.reductionMetric) := by
  have hfull : (Run.unwatched : AnalysisRun).Undisturbed := Run.undisturbed_unwatched
  obtain ⟨workers, hmay⟩ : ∃ workers, MayReturn finder settings workers records run
      (.ok (after, a)) :=
    h.elim (fun hloop => ⟨1, (mayReturn_iff_of_not_below (by decide)).2 hloop.symm⟩) id
  obtain ⟨reached, hloop⟩ :=
    exists_ofRecords_of_mayReturn hfull hmay (statusName_eq_completed.1 hcompleted)
  obtain ⟨policy, thresholds, frequencies, x, y, hwhole, -, rfl⟩ := ofRecords_eq_ok_iff.1 hloop
  refine ⟨policy, hwhole.policy_eq, fun e he => ?_⟩
  have hoids' := nodup_oid_analysed fun _ : policy.mode = .user => hoids
  obtain ⟨hcluster, hagrees⟩ := hwhole.agrees_entry hoids hfull he
  obtain ⟨kind, cs, hgathers⟩ := hwhole.exists_gathers hcluster
  have hfound := hgathers.oid_memberRecords hoids'
  have hproperties {r : Record}
      (hr : r ∈ e.cluster.memberRecords (analysed policy.mode records)) :
      r.properties ⊆ e.cluster.properties := hgathers.properties_subset hoids' hr
  refine ⟨hfound, fun p hp i hi hpi => ?_, fun hfits => ?_, fun p hp => ?_, fun i hi => ?_,
    fun hnone => ?_, fun hsome => ?_⟩
  · obtain ⟨hsupport, hweight, -⟩ := hagrees.intersections i hi
    have hpi' : p.support = i.support := by
      rw [(hagrees.patterns p hp).1, hsupport, hpi]
    refine ⟨hpi', fun huser => ?_⟩
    rw [hweight, ← hpi', ← hpi]
    exact hagrees.scores huser p hp
  · have hcount := hgathers.membersCount_eq_sum hoids' hfits
    have hle (K : IdSet) : Intersection.supportOf
        (e.cluster.memberRecords (analysed policy.mode records)) K ≤
          e.cluster.statistics.membersCount := by
      rw [hcount]
      exact Intersection.supportOf_le_sum _ K
    refine ⟨fun i hi => ?_, fun p hp => ?_⟩
    · rw [(hagrees.intersections i hi).1]
      exact hle i.properties
    · rw [(hagrees.patterns p hp).1]
      exact hle p.properties
  · obtain ⟨-, hmembers, hheld⟩ := hagrees.patterns p hp
    refine ⟨fun y hy => ?_, fun x hx => ?_⟩
    · have hy := IdSet.mem_ofList.1 (hmembers y hy)
      rwa [hfound] at hy
    · obtain ⟨r, hr, hxr⟩ := mem_heldProperties.1 (hheld x hx)
      exact hproperties hr x hxr
  · obtain ⟨-, -, r, hr, hsub⟩ := hagrees.intersections i hi
    exact fun x hx => hproperties hr x (hsub x hx)
  · rw [hagrees.metric_eq, hnone]
    rfl
  · rw [hagrees.metric_eq]
    exact Pattern.isBestScore_reductionMetric hsome hagrees.finite

/-- What a test reads off a finished analysis: whether it was stopped, and of each cluster the
member count with the properties of what was found. -/
def outline (x : AnalysisRun × Analysis) : Bool × List (ℤ × List IdSet × List IdSet) :=
  (x.2.aborted, x.2.clusters.map fun e => (e.cluster.statistics.membersCount,
    e.mined.patterns.map (·.properties), e.mined.intersections.map (·.properties)))

theorem paths_agree_on_two_users : ∃ (after : AnalysisRun) (a : Analysis) (e : ClusterAnalysis)
    (p : Pattern) (i : Intersection), (Pattern.twoUsers.map (·.oid)).Nodup ∧
    ofRecords Community.best exactSettings Pattern.twoUsers Run.unwatched = .ok (after, a) ∧
    (∃ after', MayReturn Community.best exactSettings 2 Pattern.twoUsers Run.unwatched
      (.ok (after', a))) ∧
    statusName a.aborted = "completed" ∧ e ∈ a.clusters ∧ p ∈ e.mined.patterns ∧
    i ∈ e.mined.intersections ∧ p.properties = i.properties ∧ p.support = i.support ∧
    p.support ≤ 4 := by
  have hoids : (Pattern.twoUsers.map (·.oid)).Nodup := by decide
  have houtline : ((ofRecords Community.best exactSettings Pattern.twoUsers
      Run.unwatched).toOption.map outline) =
        some (false, [(4, [.ofList ["dev", "ops"]], [.ofList ["dev", "ops"]])]) := by
    decide +kernel
  have hmode : (exactSettings.session.check.toOption.map (·.mode)) = some .user := by
    decide +kernel
  cases h : ofRecords Community.best exactSettings Pattern.twoUsers Run.unwatched with
  | error failure => simp [h, Except.toOption] at houtline
  | ok x =>
    obtain ⟨after, a⟩ := x
    rw [h] at houtline
    simp only [Except.toOption, Option.map_some, Option.some_inj, outline, Prod.mk.injEq]
      at houtline
    obtain ⟨hcomplete, hclusters⟩ := houtline
    have hstatus := statusName_eq_completed.2 hcomplete
    obtain ⟨result, hresult⟩ :=
      exists_mayReturn Community.best exactSettings 2 Pattern.twoUsers Run.unwatched
    obtain ⟨after', rfl⟩ := eq_of_mayReturn Run.undisturbed_unwatched hresult h
    obtain ⟨policy, hpolicy, hentries⟩ := mining_paths_agree Community.best exactSettings hoids
      (.inr ⟨2, hresult⟩) hstatus
    obtain ⟨e, he, hentry⟩ := List.mem_map.1 (hclusters ▸ List.mem_singleton_self _)
    obtain ⟨hcount, hfound⟩ := Prod.mk.inj hentry
    obtain ⟨hpatterns, hshared⟩ := Prod.mk.inj hfound
    obtain ⟨p, hp, hpe⟩ := List.mem_map.1 (hpatterns ▸ List.mem_singleton_self _)
    obtain ⟨i, hi, hie⟩ := List.mem_map.1 (hshared ▸ List.mem_singleton_self _)
    obtain ⟨-, hagree, hbounded, -⟩ := hentries e he
    have hlight : ∀ r ∈ e.cluster.memberRecords (analysed policy.mode Pattern.twoUsers),
        ((Chunk.groupOf (analysed policy.mode Pattern.twoUsers) r.properties).map
          (·.weight)).sum < 2 ^ 63 := by
      rw [hpolicy] at hmode
      rw [show policy.mode = .user from Option.some_inj.1 hmode]
      have hall : ∀ r ∈ Pattern.twoUsers,
          ((Chunk.groupOf Pattern.twoUsers r.properties).map (·.weight)).sum < 2 ^ 63 := by
        decide
      exact fun r hr => hall r (Mined.mem_membersOf hr).1
    have hpi := hpe.trans hie.symm
    refine ⟨after, a, e, p, i, hoids, rfl, ⟨after', hresult⟩, hstatus, he, hp, hi, hpi,
      (hagree p hp i hi hpi).1, ?_⟩
    rw [← hcount]
    exact (hbounded hlight).2 p hp

/-- The count of a cluster wraps around where the support of its pattern does not. -/
theorem heavy_cluster_counts_five : (heavyUsers.map (·.oid)).Nodup ∧
    ((ofRecords Community.best exactSettings heavyUsers Run.unwatched).toOption.map fun x =>
      (statusName x.2.aborted, x.2.clusters.map fun e =>
        (e.cluster.statistics.membersCount, e.mined.patterns.map (·.support)))) =
      some ("completed", [(5, [2 ^ 64 + 5])]) := by
  decide +kernel

end Analysis
end RoleMining
