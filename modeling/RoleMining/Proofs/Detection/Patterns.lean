import RoleMining.Proofs.Detection.Exploration
import RoleMining.Proofs.Thresholds

/-!
# Detected patterns are those of the reference

A detection that is not cancelled returns the patterns of the reference, in an order that they
determine. It returns whenever the scores of all supported bodies are within the range of doubles;
an integer beyond that range is the only way to fail.
-/
namespace RoleMining

namespace Pattern

theorem ordered_iff (a b : Pattern) : ordered a b = true ↔
    b.support < a.support ∨
      (a.support = b.support ∧ a.properties.toList ≤ b.properties.toList) := by
  simp [ordered, IdSet.keyAtMost_iff]

theorem ofFinding_eq_ok_iff {mode : Mode} {bodyWeight supportWeight : String → ℤ} {B S : IdSet}
    {p : Pattern} : ofFinding mode bodyWeight supportWeight B S = .ok p ↔
      p.properties = B ∧ p.members = S ∧ p.support = S.weighted supportWeight ∧
      Binary64.ofInt? (B.weighted bodyWeight * S.weighted supportWeight) = some p.score ∧
      p.mode = mode := by
  unfold ofFinding
  dsimp only
  cases Binary64.ofInt? (B.weighted bodyWeight * S.weighted supportWeight) with
  | none => simp
  | some score =>
    cases p
    simp [eq_comm]

theorem ofFinding_eq_error {mode : Mode} {bodyWeight supportWeight : String → ℤ} {B S : IdSet}
    {failure : Failure} (h : ofFinding mode bodyWeight supportWeight B S = .error failure) :
    failure = .numberTooLarge ∧
      Binary64.ofInt? (B.weighted bodyWeight * S.weighted supportWeight) = none := by
  unfold ofFinding at h
  dsimp only at h
  split at h
  next => cases h
  next hnone =>
    cases h
    exact ⟨rfl, hnone⟩

end Pattern

namespace Reference

variable {α : Type} {r : Reference} {mode : Mode} {run after : Run α} {patterns : List Pattern}

/-- Without chunks there is nothing to support a body. -/
theorem not_isCandidate_of_nil (h : r.chunks = []) (S : IdSet) : ¬ r.IsCandidate S := by
  intro hcandidate
  rcases hcandidate with ⟨-, n, hlow, -, chosen, hsub, hlen, -⟩
  have hnone : r.supportSets = [] := by simp [supportSets, survivors, h]
  rw [hnone, List.sublist_nil] at hsub
  rw [hsub, List.length_nil] at hlen
  omega

variable (hr : Chunk.Consistent r.bodyWeight r.supportWeight r.chunks)
include hr

/-- A detection lists findings; if it is not cancelled, then all that the reference has. -/
theorem exists_findings_of_detect
    (h : Pattern.detect mode r.thresholds r.chunks run = .ok (after, patterns)) :
    ∃ (findings : Pattern.Findings) (listed : List Pattern),
      (after.cancelled = false → ∀ B S, findings.find? B = some S ↔ r.IsFinding S B) ∧
      r.scored mode findings = .ok listed ∧
      patterns = listed.mergeSort Pattern.ordered := by
  by_cases hempty : r.chunks = []
  · rw [hempty] at h
    cases h
    refine ⟨.empty, [], fun _ B S => ?_, rfl, by simp⟩
    simp only [Ledger.find?_empty, reduceCtorEq, false_iff]
    exact fun hfinding => not_isCandidate_of_nil hempty S hfinding.candidate
  · rw [detect_eq hr hempty] at h
    generalize hlisted : r.scored mode (r.explore run).2 = listed at h
    cases listed with
    | error => cases h
    | ok listed =>
      cases h
      exact ⟨_, listed, fun hafter B S => find?_explore hr hafter, hlisted, rfl⟩

theorem isPattern_iff {p : Pattern} (h : r.IsFinding p.members p.properties) :
    r.IsPattern mode p ↔
      Pattern.ofFinding mode r.bodyWeightIn r.supportWeightIn p.properties p.members = .ok p := by
  have hbody := weighted_bodyWeightIn hr h.body
  have hsupport := weighted_supportWeightIn hr h.candidate.subset_population
  rw [Pattern.ofFinding_eq_ok_iff, hbody, hsupport]
  constructor
  · exact fun hp => ⟨rfl, rfl, hp.support_eq, hp.score_eq, hp.mode_eq⟩
  · intro hfields
    rcases hfields with ⟨-, -, hweight, hscore, hmode⟩
    exact ⟨h, hweight, hscore, hmode⟩

theorem mem_detect_iff (h : Pattern.detect mode r.thresholds r.chunks run = .ok (after, patterns))
    (hafter : after.cancelled = false) {p : Pattern} : p ∈ patterns ↔ r.IsPattern mode p := by
  obtain ⟨findings, listed, hfindings, hlisted, rfl⟩ := exists_findings_of_detect hr h
  rw [List.mem_mergeSort, mem_of_mapM_eq_ok hlisted]
  constructor
  · intro hlist
    rcases hlist with ⟨⟨B, S⟩, hentry, hp⟩
    obtain ⟨rfl, rfl, -⟩ := Pattern.ofFinding_eq_ok_iff.1 hp
    have hfinding := (hfindings hafter _ _).1 (Ledger.mem_entries_iff.1 hentry)
    exact (isPattern_iff hr hfinding).2 hp
  · intro hp
    have hentry := Ledger.mem_entries_iff.2 ((hfindings hafter _ _).2 hp.finding)
    exact ⟨_, hentry, (isPattern_iff hr hp.finding).1 hp⟩

/-- Every body that is large enough is reported. -/
theorem exists_mem_detect
    (h : Pattern.detect mode r.thresholds r.chunks run = .ok (after, patterns))
    (hafter : after.cancelled = false) {S B : IdSet} (hS : r.Supports S B) :
    ∃ p ∈ patterns, p.properties = B := by
  obtain ⟨T, hT⟩ := exists_isFinding hr hS
  obtain ⟨findings, listed, hfindings, hlisted, rfl⟩ := exists_findings_of_detect hr h
  have hentry := Ledger.mem_entries_iff.2 ((hfindings hafter B T).2 hT)
  obtain ⟨p, hp, hof⟩ := exists_of_mem_of_mapM_eq_ok hlisted hentry
  exact ⟨p, List.mem_mergeSort.2 hp, (Pattern.ofFinding_eq_ok_iff.1 hof).1⟩

theorem nodup_properties_detect
    (h : Pattern.detect mode r.thresholds r.chunks run = .ok (after, patterns)) :
    (patterns.map (·.properties)).Nodup := by
  obtain ⟨findings, listed, -, hlisted, rfl⟩ := exists_findings_of_detect hr h
  have hkeys : listed.map (·.properties) = findings.keys := by
    refine map_eq_of_mapM_eq_ok (fun e p hp => ?_) hlisted
    exact (Pattern.ofFinding_eq_ok_iff.1 hp).1
  rw [((List.mergeSort_perm _ _).map _).nodup_iff, hkeys]
  exact findings.nodup

/-- Heavier supports come first, then smaller bodies. -/
theorem pairwise_detect
    (h : Pattern.detect mode r.thresholds r.chunks run = .ok (after, patterns)) :
    patterns.Pairwise (Precedes (·.support) (·.properties)) := by
  have hnodup := nodup_properties_detect hr h
  obtain ⟨findings, listed, -, -, rfl⟩ := exists_findings_of_detect hr h
  exact pairwise_mergeSort_precedes Pattern.ordered_iff hnodup

/-- A detection fails only on a supported body whose score is beyond the range of doubles. -/
theorem detect_eq_error {failure : Failure}
    (h : Pattern.detect mode r.thresholds r.chunks run = .error failure) :
    failure = .numberTooLarge ∧ ∃ S B, r.Supports S B ∧
      Binary64.ofInt? (B.weighted r.bodyWeight * S.weighted r.supportWeight) = none := by
  have hne : r.chunks ≠ [] := by
    intro hempty
    rw [hempty] at h
    cases h
  rw [detect_eq hr hne] at h
  generalize hlisted : r.scored mode (r.explore run).2 = listed at h
  cases listed with
  | ok => cases h
  | error e =>
    cases h
    obtain ⟨⟨B, S⟩, hentry, hof⟩ := exists_of_mapM_eq_error hlisted
    obtain ⟨hfailure, hnone⟩ := Pattern.ofFinding_eq_error hof
    have hsupports := supports_of_explore hr (Ledger.mem_entries_iff.1 hentry)
    rw [weighted_bodyWeightIn hr hsupports.body,
      weighted_supportWeightIn hr hsupports.candidate.subset_population] at hnone
    exact ⟨hfailure, S, B, hsupports, hnone⟩

theorem exists_detect (mode : Mode) (run : Run α) (hfits : ∀ S B, r.Supports S B →
      (Binary64.ofInt? (B.weighted r.bodyWeight * S.weighted r.supportWeight)).isSome = true) :
    ∃ after patterns,
      Pattern.detect mode r.thresholds r.chunks run = .ok (after, patterns) := by
  cases h : Pattern.detect mode r.thresholds r.chunks run with
  | ok result => exact ⟨result.1, result.2, rfl⟩
  | error failure =>
    obtain ⟨-, S, B, hS, hnone⟩ := detect_eq_error hr h
    simpa [hnone] using hfits S B hS

theorem cancelled_detect (hrun : run.Unhindered)
    (h : Pattern.detect mode r.thresholds r.chunks run = .ok (after, patterns)) :
    after.cancelled = false := by
  by_cases hempty : r.chunks = []
  · rw [hempty] at h
    cases h
    exact hrun.running
  · rw [detect_eq hr hempty] at h
    cases hscored : r.scored mode (r.explore run).2 with
    | error => simp [hscored, Except.map] at h
    | ok listed =>
      rw [hscored] at h
      cases h
      exact cancelled_explore hrun

/-- The scores are in range when the weights of all members and of the population are. -/
theorem score_fits (hbound : (IdSet.ofList (r.chunks.flatMap (·.members))).weighted r.bodyWeight *
      r.population.weighted r.supportWeight < 2 ^ 1023) {S B : IdSet} (h : r.Supports S B) :
    (Binary64.ofInt? (B.weighted r.bodyWeight * S.weighted r.supportWeight)).isSome = true := by
  have hbodyPos : ∀ x ∈ IdSet.ofList (r.chunks.flatMap (·.members)), 0 ≤ r.bodyWeight x :=
    fun x hx => le_trans (by decide) (hr.one_le_bodyWeight x hx)
  have hsupportPos : ∀ x ∈ r.population, 0 ≤ r.supportWeight x :=
    fun x hx => le_trans (by decide) (hr.one_le_supportWeight x hx)
  have hB := h.body.subset_members
  have hS := h.candidate.subset_population
  have hbody : 0 ≤ B.weighted r.bodyWeight :=
    IdSet.weighted_nonneg fun x hx => hbodyPos x (hB x hx)
  have hsupport : 0 ≤ S.weighted r.supportWeight :=
    IdSet.weighted_nonneg fun x hx => hsupportPos x (hS x hx)
  apply Binary64.isSome_ofInt?
  rw [abs_of_nonneg (mul_nonneg hbody hsupport)]
  calc
    B.weighted r.bodyWeight * S.weighted r.supportWeight
        ≤ (IdSet.ofList (r.chunks.flatMap (·.members))).weighted r.bodyWeight *
          r.population.weighted r.supportWeight :=
      mul_le_mul (IdSet.weighted_mono hbodyPos hB) (IdSet.weighted_mono hsupportPos hS) hsupport
        (hbody.trans (IdSet.weighted_mono hbodyPos hB))
    _ < 2 ^ 1023 := hbound

end Reference

namespace Pattern

/-- Detection meets its reference. With options that nothing is wrong with, on chunks that agree
on weights, it returns whenever the scores are in range, and fails on no other ground. A run that
is not cancelled returns the patterns of the reference: one for each body that is large enough,
with the best of its supports; the heavier support stands first, then the smaller body. -/
theorem detect_meets_reference {α : Type} {options : Detection}
    (hoptions : options.complaints = .ok []) {chunks : List Chunk}
    {bodyWeight supportWeight : String → ℤ}
    (hchunks : Chunk.Consistent bodyWeight supportWeight chunks) (mode : Mode) (run : Run α) :
    ∃ thresholds, options.check = .ok thresholds ∧
      let r : Reference := { chunks, bodyWeight, supportWeight, thresholds }
      ((∀ S B, r.Supports S B →
          (Binary64.ofInt? (B.weighted bodyWeight * S.weighted supportWeight)).isSome = true) →
        ∃ after patterns, detect mode thresholds chunks run = .ok (after, patterns)) ∧
      (∀ failure, detect mode thresholds chunks run = .error failure →
        failure = .numberTooLarge) ∧
      ∀ after patterns, detect mode thresholds chunks run = .ok (after, patterns) →
        after.cancelled = false →
        (∀ p, p ∈ patterns ↔ r.IsPattern mode p) ∧
        (∀ S B, r.Supports S B → ∃! p, p ∈ patterns ∧ p.properties = B) ∧
        patterns.Pairwise fun p q => q.support < p.support ∨
          (p.support = q.support ∧ p.properties.toList < q.properties.toList) := by
  obtain ⟨thresholds, hcheck, -⟩ := Detection.exists_check hoptions
  refine ⟨thresholds, hcheck, ?_⟩
  intro r
  have hr : Chunk.Consistent r.bodyWeight r.supportWeight r.chunks := hchunks
  refine ⟨Reference.exists_detect hr mode run, ?_, ?_⟩
  · intro failure h
    exact (Reference.detect_eq_error hr h).1
  · intro after patterns h hafter
    refine ⟨fun p => Reference.mem_detect_iff hr h hafter, fun S B hS => ?_,
      Reference.pairwise_detect hr h⟩
    obtain ⟨p, hp, hB⟩ := Reference.exists_mem_detect hr h hafter hS
    refine ⟨p, ⟨hp, hB⟩, fun q hq => ?_⟩
    have hnodup := Reference.nodup_properties_detect hr h
    exact List.inj_on_of_nodup_map hnodup hq.1 hp (hq.2.trans hB.symm)

/-- One role that three users hold, and another that two of them hold. -/
def sharedRoles : List Chunk :=
  [{ kind := .roles, members := ["dev"], properties := ["ann", "bob", "cid"], weight := 1 },
    { kind := .roles, members := ["ops"], properties := ["ann", "bob"], weight := 1 }]

theorem detect_finds_shared_roles : ∃ (after : Run Unit) (patterns : List Pattern) (p : Pattern),
    ({} : Detection).complaints = .ok [] ∧
    Chunk.Consistent (fun _ => 1) (fun _ => 1) sharedRoles ∧
    detect .user Detection.standard sharedRoles Run.unwatched = .ok (after, patterns) ∧
    after.cancelled = false ∧ p ∈ patterns ∧ p.properties = .ofList ["dev", "ops"] := by
  have hvalid : ({} : Detection).complaints = .ok [] := by decide +kernel
  have hchunks : Chunk.Consistent (fun _ => 1) (fun _ => 1) sharedRoles := by
    constructor <;> (unfold Chunk.Measures; decide)
  obtain ⟨thresholds, hcheck, hreturns, -, hexact⟩ :=
    detect_meets_reference hvalid hchunks .user (Run.unwatched : Run Unit)
  cases Detection.check_default.symm.trans hcheck
  let r : Reference := ⟨sharedRoles, fun _ => 1, fun _ => 1, Detection.standard⟩
  have hr : Chunk.Consistent r.bodyWeight r.supportWeight r.chunks := hchunks
  have hsupports : r.Supports (.ofList ["ann", "bob"]) (.ofList ["dev", "ops"]) := by
    have hcandidate : IsMeet 1 r.supportSets (.ofList ["ann", "bob"]) :=
      isMeet_one_iff.2 (by decide +kernel)
    exact ⟨⟨by decide, 1, by omega, by omega, hcandidate⟩,
      Reference.bodyOf_eq_iff.1 (by decide +kernel), by decide⟩
  obtain ⟨after, patterns, hdetect⟩ :=
    hreturns fun S B hS => Reference.score_fits hr (by decide +kernel) hS
  have hafter := Reference.cancelled_detect hr Run.unhindered_unwatched hdetect
  obtain ⟨p, ⟨hp, hB⟩, -⟩ := (hexact after patterns hdetect hafter).2.1 _ _ hsupports
  exact ⟨after, patterns, p, hvalid, hchunks, hdetect, hafter, hp, hB⟩

/-- A user of some weight with three roles. -/
def loneUser (weight : ℤ) : Reference where
  chunks := [{
    kind := .roles
    members := ["dev", "ops", "qa"]
    properties := ["ann"]
    weight := 3
    propertyWeights := [weight] }]
  bodyWeight _ := 1
  supportWeight _ := weight
  thresholds := Detection.standard

theorem detect_misses_scores_out_of_range :
    ({} : Detection).complaints = .ok [] ∧ ({} : Detection).check = .ok Detection.standard ∧
    (∀ weight ∈ [(10 : ℤ) ^ 309, 2 ^ 53 + 1],
      Chunk.Consistent (loneUser weight).bodyWeight (loneUser weight).supportWeight
        (loneUser weight).chunks ∧
      (loneUser weight).Supports (.ofList ["ann"]) (.ofList ["dev", "ops", "qa"])) ∧
    detect .user Detection.standard (loneUser (10 ^ 309)).chunks (Run.unwatched : Run Unit) =
      .error .numberTooLarge ∧
    ((detect .user Detection.standard (loneUser (2 ^ 53 + 1)).chunks
      (Run.unwatched : Run Unit)).toOption.map fun result =>
        result.2.map fun p => (p.properties, p.members, p.score.value)) =
      some [(.ofList ["dev", "ops", "qa"], .ofList ["ann"], 3 * (2 ^ 53 + 1) + 1)] := by
  have hconsistent : ∀ weight ∈ [(10 : ℤ) ^ 309, 2 ^ 53 + 1],
      Chunk.Consistent (loneUser weight).bodyWeight (loneUser weight).supportWeight
        (loneUser weight).chunks := by
    refine fun weight hweight => ⟨?_, ?_⟩ <;> revert weight <;> unfold Chunk.Measures <;>
      decide +kernel
  have hfacts : ∀ weight ∈ [(10 : ℤ) ^ 309, 2 ^ 53 + 1],
      .ofList ["ann"] ∈ (loneUser weight).supportSets ∧
      reaches (loneUser weight).supportWeight 2 (.ofList ["ann"]) = true ∧
      (loneUser weight).search.bodyOf (.ofList ["ann"]) = .ofList ["dev", "ops", "qa"] ∧
      reaches (loneUser weight).bodyWeight 2 (.ofList ["dev", "ops", "qa"]) = true := by
    decide +kernel
  refine ⟨by decide +kernel, Detection.check_default, fun weight hweight =>
    ⟨hconsistent weight hweight, ?_⟩, ?_, by decide +kernel⟩
  · obtain ⟨hmem, hheavy, hbody, hlarge⟩ := hfacts weight hweight
    exact ⟨⟨hheavy, 1, le_rfl, by omega, isMeet_one_iff.2 hmem⟩, Reference.bodyOf_eq_iff.1 hbody,
      hlarge⟩
  · have hnone : (detect .user Detection.standard (loneUser (10 ^ 309)).chunks
        (Run.unwatched : Run Unit)).toOption.isNone = true := by decide +kernel
    cases h : detect .user Detection.standard (loneUser (10 ^ 309)).chunks
        (Run.unwatched : Run Unit) with
    | ok result =>
      rw [h] at hnone
      cases hnone
    | error failure =>
      rw [(Reference.detect_eq_error (hconsistent _ List.mem_cons_self) h).1]

end Pattern
end RoleMining
