import RoleMining.Proofs.Pool.Programs

/-!
# A stop is no reason to fail

Whenever the other threads stop a run, the analysis of a cluster comes to an answer, provided that
it does so on a run that nothing stops. What has been discovered by then is a first part of all
discoveries, each candidate resolved so far supports its body, and every supported body has a score.
-/
namespace RoleMining

variable {related : String → String → Prop}

namespace Sweep

/-- A pass has seen a first part of the pairs, and all of them unless it was stopped. -/
theorem all_work (qualifies : IdSet → Bool) (total compared : ℕ) (seen : List IdSet)
    (ps : List (IdSet × IdSet)) : (work qualifies total compared seen ps).All fun x =>
      ∃ done stopped, x = .ok (seen.reverse ++ shared qualifies done, stopped) ∧ done <+: ps ∧
        (stopped = false → done = ps) := by
  induction ps generalizing compared seen with
  | nil =>
    refine (Work.all_checkpoint _).bind (fun stopped _ => ?_) fun e he => by simp at he
    exact ⟨[], stopped, by simp [shared], List.prefix_rfl, fun _ => rfl⟩
  | cons p ps ih =>
    obtain ⟨a, b⟩ := p
    refine (Work.all_tick _ _).bind (fun stopped _ => ?_) fun e he => by simp at he
    cases stopped with
    | true => exact ⟨[], true, by simp [shared], List.nil_prefix, fun h => by cases h⟩
    | false =>
      refine (ih _ _).imp fun x hx => ?_
      obtain ⟨done, stopped, rfl, hinitial, hall⟩ := hx
      refine ⟨(a, b) :: done, stopped, ?_, List.cons_prefix_cons.2 ⟨rfl, hinitial⟩, fun h => ?_⟩
      · rw [shared_cons]
        split_ifs <;> simp
      · rw [hall h]

end Sweep

/-- Whatever happens to the run, a first part of all discoveries is recorded. -/
theorem all_collectWork (qualifies : IdSet → Bool) (sets : List IdSet) :
    (collectWork qualifies sets).All fun x =>
      ∃ found, x = .ok found ∧ found.entries <+: (allDiscoveries qualifies sets).entries := by
  refine (Sweep.all_work ..).bind (fun outer houter => ?_) fun e he => by simp at he
  obtain ⟨done, stopped, houter, hinitial, hall⟩ := houter
  cases houter
  cases stopped with
  | true =>
    refine ⟨_, rfl, List.IsPrefix.trans ?_ (Discoveries.isPrefix_recordAll _ _ _)⟩
    exact Discoveries.recordAll_isPrefix ((hinitial.map _).filter _) .empty
  | false =>
    obtain rfl := hall rfl
    refine (Sweep.all_work ..).bind (fun inner hinner => ?_) fun e he => by simp at he
    obtain ⟨done, stopped, hinner, hinitial', -⟩ := hinner
    cases hinner
    refine (Work.all_markIf stopped).bind (fun _ _ => ?_) fun e he => by simp at he
    exact ⟨_, rfl, Discoveries.recordAll_isPrefix ((hinitial'.map _).filter _) _⟩

namespace Pattern.Search

variable (search : Search)

theorem all_work (total done : ℕ) (findings : Findings) (candidates : List IdSet) :
    (search.work total done findings candidates).All fun x => ∃ resolved,
      resolved <+: candidates ∧ x = .ok (resolved.foldl search.step findings) := by
  induction candidates generalizing done findings with
  | nil =>
    refine (Work.all_checkpoint _).bind (fun stopped _ => ?_) fun e he => by simp at he
    refine (Work.all_markIf stopped).bind (fun _ _ => ?_) fun e he => by simp at he
    exact ⟨[], List.prefix_rfl, rfl⟩
  | cons support rest ih =>
    refine (Work.all_tick _ _).bind (fun stopped _ => ?_) fun e he => by simp at he
    cases stopped with
    | true => exact ⟨[], List.nil_prefix, rfl⟩
    | false =>
      refine (ih _ _).imp fun x hx => ?_
      obtain ⟨resolved, hinitial, rfl⟩ := hx
      exact ⟨support :: resolved, List.cons_prefix_cons.2 ⟨rfl, hinitial⟩, rfl⟩

/-- Whatever happens to the run, a first part of the candidates is resolved. -/
theorem all_allWork (candidates : List IdSet) : (search.allWork candidates).All fun x =>
    ∃ resolved, resolved <+: candidates ∧ x = .ok (resolved.foldl search.step .empty) := by
  intro stopped
  cases stopped with
  | true => exact ⟨[], List.nil_prefix, rfl⟩
  | false => exact search.all_work _ _ _ _

end Pattern.Search

namespace Reference

variable {r : Reference} {mode : Mode}
variable (hr : Chunk.Consistent r.bodyWeight r.supportWeight r.chunks)
include hr

/-- Candidates are candidates also when they come of a first part of the discoveries. -/
theorem isCandidate_of_isPrefix {found : Discoveries}
    (hfound : found.entries <+: (allDiscoveries r.isSupport r.eligible).entries) {S : IdSet}
    (hS : S ∈ r.candidates found) : r.IsCandidate S := by
  obtain ⟨after, all, hall, hafter⟩ : ∃ (after : Run Unit) (all : Discoveries),
      collectIntersections r.isSupport r.eligible Run.unwatched = (after, all) ∧
        after.cancelled = false :=
    exists_collectIntersections Run.unhindered_unwatched
  obtain rfl : all = allDiscoveries r.isSupport r.eligible :=
    collectIntersections_eq_levels hall hafter
  have hkeys : found.keys ⊆ (allDiscoveries r.isSupport r.eligible).keys :=
    (hfound.map Prod.fst).subset
  rw [← mem_candidates_iff hr hall hafter, candidates, mem_sortKeys, List.mem_append]
  rw [candidates, mem_sortKeys, List.mem_append] at hS
  exact hS.imp_right fun h => hkeys h

theorem detectWork_eq (hne : r.chunks ≠ []) :
    Pattern.detectWork mode r.thresholds r.chunks =
      collectWork r.isSupport r.eligible >>= fun found =>
      r.search.allWork (r.candidates found) >>= fun findings =>
      Work.ofExcept (r.scored mode findings) >>= fun patterns =>
      pure (patterns.mergeSort Pattern.ordered) := by
  have hnonempty : r.chunks.isEmpty = false := by simpa using hne
  have hkept := surviving_eq_survivors hr
  have hheld : (Pattern.holdings r.survivors).map (·.1) = r.supportSets := by
    simp [Pattern.holdings, supportSets, Function.comp_def]
  unfold Pattern.detectWork
  dsimp only
  rw [hnonempty, hkept]
  change (collectWork _ (((Pattern.holdings r.survivors).map (·.1)).filter _) >>= _) = _
  rw [hheld]
  rfl

/-- Findings that support their bodies get their numbers when every supported body has a score. -/
theorem exists_scored (hfits : ∀ S B, r.Supports S B →
      (Binary64.ofInt? (B.weighted r.bodyWeight * S.weighted r.supportWeight)).isSome = true)
    {findings : Pattern.Findings} (h : ∀ B S, findings.find? B = some S → r.Supports S B) :
    ∃ patterns, r.scored mode findings = .ok patterns := by
  refine exists_mapM_eq_ok fun e he => ?_
  have hsupports := h e.1 e.2 (Ledger.mem_entries_iff.1 he)
  cases hof : Pattern.ofFinding mode r.bodyWeightIn r.supportWeightIn e.1 e.2 with
  | ok p => exact ⟨p, rfl⟩
  | error failure =>
    have hnone := (Pattern.ofFinding_eq_error hof).2
    rw [weighted_bodyWeightIn hr hsupports.body,
      weighted_supportWeightIn hr hsupports.candidate.subset_population] at hnone
    simpa [hnone] using hfits _ _ hsupports

/-- Detection comes to an answer when every supported body has a score. -/
theorem all_detectWork (mode : Mode) (hfits : ∀ S B, r.Supports S B →
      (Binary64.ofInt? (B.weighted r.bodyWeight * S.weighted r.supportWeight)).isSome = true) :
    (Pattern.detectWork mode r.thresholds r.chunks).All fun x => ∃ patterns, x = .ok patterns := by
  by_cases hempty : r.chunks = []
  · rw [hempty]
    exact ⟨[], rfl⟩
  · rw [detectWork_eq hr hempty]
    refine (all_collectWork ..).bind (fun found hfound => ?_) fun e he => by simp at he
    obtain ⟨found, he, hinitial⟩ := hfound
    cases he
    refine (r.search.all_allWork _).bind (fun findings hfindings => ?_) fun e he => by simp at he
    obtain ⟨resolved, hresolved, he⟩ := hfindings
    cases he
    have htracks : r.search.Tracks resolved (resolved.foldl r.search.step .empty) :=
      Pattern.Search.Tracks.foldl_step ((pairwise_sortKeys _).sublist hresolved.sublist)
    have hcandidate (S : IdSet) (hS : S ∈ resolved) : r.IsCandidate S :=
      isCandidate_of_isPrefix hr hinitial (hresolved.subset hS)
    obtain ⟨patterns, hpatterns⟩ : ∃ patterns,
        r.scored mode (resolved.foldl r.search.step .empty) = .ok patterns :=
      exists_scored hr hfits fun B S hS =>
        supports_of_isBest hr hcandidate (htracks.sound B S hS)
    rw [hpatterns]
    exact ⟨_, rfl⟩

end Reference

/-- Mining comes to an answer whenever it does so on an undisturbed run. -/
theorem Mined.all_work {α : Type} {mode : Mode} {detection : Detection} {frequencies : Frequencies}
    {weights : Ledger String ℤ} {members : List Record} (hoids : (members.map (·.oid)).Nodup)
    {full reached : Run α} {mined : Mined} (hfull : full.Undisturbed)
    (h : ofMembers mode detection (some frequencies) weights members full = .ok (reached, mined)) :
    (Mined.work mode detection frequencies weights members).All fun x => ∃ m, x = .ok m := by
  rw [ofMembers_eq] at h
  obtain ⟨limits, hlimits, h⟩ := bind_eq_ok_iff.1 h
  obtain ⟨chunks, hchunks, h⟩ := bind_eq_ok_iff.1 h
  obtain ⟨thresholds, hthresholds, h⟩ := bind_eq_ok_iff.1 h
  obtain ⟨extracted, hextracted, h⟩ := bind_eq_ok_iff.1 h
  obtain ⟨⟨last, patterns⟩, hdetected, -⟩ := bind_eq_ok_iff.1 h
  have hof := hchunks
  rw [chunksOf_eq mode weights members thresholds] at hof
  obtain ⟨base, hbase, hof⟩ := bind_eq_ok_iff.1 hof
  obtain rfl := Except.ok.inj hof
  obtain rfl := Except.ok.inj hextracted
  have hbaseOids := nodup_oid_baseOf hoids hbase
  have hr := Reference.consistent_ofRecords mode thresholds hbaseOids
  have hdescribes := Reference.describes_ofRecords mode thresholds hbaseOids
  rw [← Reference.detect_ofRecords] at hdetected
  have hlast : last.cancelled = false :=
    Reference.cancelled_detect hr ((Intersection.settles_extract ..).unhindered hfull.toUnhindered)
      hdetected
  have hdetect := Reference.all_detectWork hr mode fun S B hS =>
    Reference.isSome_score_of_detect hr hdetected hlast hdescribes hS
  rw [Reference.thresholds_ofRecords] at hdetect
  have hextract : (Intersection.extractWork limits frequencies members).All fun x =>
      ∃ intersections, x = .ok intersections :=
    (all_collectWork ..).bind (fun _ _ => ⟨_, rfl⟩) fun e he => by simp at he
  unfold Mined.work
  rw [hlimits, hchunks, hthresholds]
  refine hextract.bind (fun intersections _ => ?_) fun e he => by simp at he
  exact hdetect.bind (fun patterns _ => ⟨_, rfl⟩) fun e he => by simp at he

namespace Analysis

variable {setting : Setting} {records : List Record} {cluster : Cluster} {a : ClusterAnalysis}
variable {full reached : AnalysisRun}

/-- An analysis comes to an answer whenever it does so on an undisturbed run. -/
theorem all_clusterWork_ok (hsetting : setting.records = Record.directory records)
    (hfull : full.Undisturbed) (h : analyzeCluster setting cluster full = .ok (reached, a)) :
    (clusterWork setting cluster).All fun x => ∃ b, x = .ok b := by
  have hoids : ((Mined.membersOf setting.records cluster.members.toList).map (·.oid)).Nodup := by
    rw [hsetting]
    exact (Mined.oid_membersOf_sublist records _).nodup cluster.members.nodup_toList
  obtain ⟨⟨mid, mined⟩, hmined, -⟩ := bind_eq_ok_iff.1 h
  refine (Mined.all_work hoids hfull hmined).bind (fun m _ => ⟨_, rfl⟩) fun e he => by simp at he

end Analysis

end RoleMining
