import RoleMining.Proofs.Detection.Reference

/-!
# A search finds what the reference asks for

A search reads weights from ledgers, goes through two passes and resolves candidates one after the
other. Within the population the ledgers agree with the reference, the passes lose no intersection,
and the best support of a body does not depend on the order of the candidates.
-/
namespace RoleMining

namespace Pattern

/-- A body with the members of one more chunk, if that has the whole support. -/
def extendBody (S body : IdSet) (h : Holding) : IdSet :=
  if S.isSubset h.1 then body.addAll h.2 else body

theorem mem_extendBody {S body : IdSet} {h : Holding} {x : String} :
    x ∈ extendBody S body h ↔ x ∈ body ∨ (S ⊆ h.1 ∧ x ∈ h.2) := by
  unfold extendBody
  split_ifs with hS
  · have hsub : S ⊆ h.1 := IdSet.subset_iff.1 hS
    simp [hsub]
  · have hsub : ¬ S ⊆ h.1 := fun hsub => hS (IdSet.subset_iff.2 hsub)
    simp [hsub]

theorem mem_bodyOf {held : List Holding} {S : IdSet} {x : String} :
    x ∈ bodyOf held S ↔ ∃ h ∈ held, S ⊆ h.1 ∧ x ∈ h.2 := by
  have hfold : ∀ start : IdSet, x ∈ held.foldl (extendBody S) start ↔
      x ∈ start ∨ ∃ h ∈ held, S ⊆ h.1 ∧ x ∈ h.2 := by
    induction held with
    | nil => simp
    | cons h held ih =>
      intro start
      rw [List.foldl_cons, ih, mem_extendBody]
      simp [or_assoc]
  have hempty : x ∉ IdSet.empty := by simp [IdSet.mem_def, IdSet.empty]
  change x ∈ held.foldl (extendBody S) .empty ↔ _
  rw [hfold]
  exact or_iff_right hempty

end Pattern

namespace Reference

variable (r : Reference)

/-- The weights of bodies as the ledger of the chunks has them. -/
def bodyWeightIn : String → ℤ := weightIn (Pattern.bodyWeights r.chunks).find?

/-- The weights of supports as the ledger of the chunks has them. -/
def supportWeightIn : String → ℤ := weightIn (Pattern.supportWeights r.chunks).find?

def isSupport : IdSet → Bool := reaches r.supportWeightIn r.thresholds.minSupport

/-- The support sets that are heavy enough themselves. -/
def eligible : List IdSet := r.supportSets.filter r.isSupport

def search : Pattern.Search where
  bodyOf := Pattern.bodyOf (Pattern.holdings r.survivors)
  isBody := reaches r.bodyWeightIn r.thresholds.minIntersection
  supportWeight := r.supportWeightIn

/-- The candidates in the order in which they are resolved. -/
def candidates (found : Discoveries) : List IdSet := sortKeys (r.eligible ++ found.keys)

/-- Both passes, and the search after them. -/
def explore {α : Type} (run : Run α) : Run α × Pattern.Findings :=
  let (run, found) := collectIntersections r.isSupport r.eligible run
  if run.cancelled then (run.markAborted, .empty)
  else r.search.resolve (r.candidates found).length run 0 .empty (r.candidates found)

/-- The findings with their numbers. -/
def scored (mode : Mode) (findings : Pattern.Findings) : Except Failure (List Pattern) :=
  findings.entries.mapM fun e =>
    Pattern.ofFinding mode r.bodyWeightIn r.supportWeightIn e.1 e.2

variable {r}

/-- A detection explores, then gives every finding its numbers and sorts the patterns. -/
theorem detect_eq {α : Type} (hr : Chunk.Consistent r.bodyWeight r.supportWeight r.chunks)
    (hne : r.chunks ≠ []) (mode : Mode) (run : Run α) :
    Pattern.detect mode r.thresholds r.chunks run =
      (r.scored mode (r.explore run).2).map fun patterns =>
        ((r.explore run).1, patterns.mergeSort Pattern.ordered) := by
  have hnonempty : r.chunks.isEmpty = false := by simpa using hne
  have hkept := surviving_eq_survivors hr
  have hheld : (Pattern.holdings r.survivors).map (·.1) = r.supportSets := by
    simp [Pattern.holdings, supportSets, Function.comp_def]
  unfold Pattern.detect
  dsimp only
  rw [hnonempty, hkept]
  simp only [bind, Except.bind, hheld]
  change (r.scored mode (r.explore run).2).bind (fun patterns =>
    Except.ok ((r.explore run).1, patterns.mergeSort Pattern.ordered)) = _
  cases r.scored mode (r.explore run).2 <;> rfl

/-! ### Weights within the population -/

section Weights

variable (hr : Chunk.Consistent r.bodyWeight r.supportWeight r.chunks)
include hr

theorem supportWeightIn_nonneg (x : String) : 0 ≤ r.supportWeightIn x :=
  le_trans (by decide) (hr.supportWeights_weighs.weightIn_pos hr.one_le_supportWeight x)

theorem isSupport_mono {S T : IdSet} (h : S ⊆ T) (hS : r.isSupport S = true) :
    r.isSupport T = true :=
  reaches_mono (fun x _ => supportWeightIn_nonneg hr x) h hS

theorem weighted_supportWeightIn {S : IdSet} (hS : S ⊆ r.population) :
    S.weighted r.supportWeightIn = S.weighted r.supportWeight :=
  hr.supportWeights_weighs.weighted_weightIn hS

theorem isSupport_iff {S : IdSet} (hS : S ⊆ r.population) :
    r.isSupport S = true ↔ reaches r.supportWeight r.thresholds.minSupport S = true := by
  rw [isSupport, reaches_iff, reaches_iff, weighted_supportWeightIn hr hS]

theorem weighted_bodyWeightIn {S B : IdSet} (hB : r.IsBody S B) :
    B.weighted r.bodyWeightIn = B.weighted r.bodyWeight :=
  hr.bodyWeights_weighs.weighted_weightIn hB.subset_members

theorem isBody_iff {S B : IdSet} (hB : r.IsBody S B) :
    r.search.isBody B = true ↔ reaches r.bodyWeight r.thresholds.minIntersection B = true := by
  change reaches r.bodyWeightIn _ B = true ↔ _
  rw [reaches_iff, reaches_iff, weighted_bodyWeightIn hr hB]

end Weights

/-! ### Candidates, bodies and findings -/

theorem isBody_bodyOf (S : IdSet) : r.IsBody S (r.search.bodyOf S) := by
  intro x
  change x ∈ Pattern.bodyOf (Pattern.holdings r.survivors) S ↔ _
  rw [Pattern.mem_bodyOf, Pattern.holdings]
  simp only [List.mem_map, exists_exists_and_eq_and]

theorem bodyOf_eq_iff {S B : IdSet} : r.search.bodyOf S = B ↔ r.IsBody S B := by
  constructor
  · intro he
    subst he
    exact isBody_bodyOf S
  · exact fun h => (isBody_bodyOf S).unique h

section Candidates

variable {α : Type} {run after : Run α} {found : Discoveries} {B S : IdSet}
variable (hr : Chunk.Consistent r.bodyWeight r.supportWeight r.chunks)
include hr

theorem mem_candidates_iff
    (hfound : collectIntersections r.isSupport r.eligible run = (after, found))
    (hafter : after.cancelled = false) : S ∈ r.candidates found ↔ r.IsCandidate S := by
  have hkeys := mem_keys_collectIntersections (K := S) (fun _ _ => isSupport_mono hr) hfound hafter
  have hmeet {n : ℕ} (hS : r.isSupport S = true) :
      IsMeet n r.eligible S ↔ IsMeet n r.supportSets S :=
    isMeet_filter_iff fun s _ hs => isSupport_mono hr hs hS
  have hsub {n : ℕ} (hn : 1 ≤ n) (h : IsMeet n r.supportSets S) : S ⊆ r.population :=
    subset_population_of_isMeet hn h
  rw [candidates, mem_sortKeys, List.mem_append, hkeys, ← isMeet_one_iff]
  constructor
  · intro h
    have hS : r.isSupport S = true := by
      rcases h with h | h
      · exact (List.mem_filter.1 (isMeet_one_iff.1 h)).2
      · exact h.1
    obtain ⟨n, hlow, hhigh, h⟩ : ∃ n, 1 ≤ n ∧ n ≤ 4 ∧ IsMeet n r.eligible S := by
      rcases h with h | ⟨-, n, hlow, hhigh, h⟩
      · exact ⟨1, le_rfl, by omega, h⟩
      · exact ⟨n, by omega, hhigh, h⟩
    rw [hmeet hS] at h
    exact ⟨(isSupport_iff hr (hsub hlow h)).1 hS, n, hlow, hhigh, h⟩
  · intro hcandidate
    rcases hcandidate with ⟨hheavy, n, hlow, hhigh, h⟩
    have hS := (isSupport_iff hr (hsub hlow h)).2 hheavy
    rw [← hmeet hS] at h
    obtain rfl | hn : n = 1 ∨ 2 ≤ n := by omega
    · exact .inl h
    · exact .inr ⟨hS, n, hn, hhigh, h⟩

/-- A search tracks candidates, and all of them unless it is cancelled. -/
theorem exists_tracks (run : Run α) : ∃ resolved : List IdSet,
    r.search.Tracks resolved (r.explore run).2 ∧ (∀ S ∈ resolved, r.IsCandidate S) ∧
    ((r.explore run).1.cancelled = false → ∀ S, r.IsCandidate S → S ∈ resolved) := by
  unfold explore
  generalize hfound : collectIntersections r.isSupport r.eligible run = pair
  obtain ⟨reached, found⟩ := pair
  dsimp only
  split
  next hstopped =>
    refine ⟨[], Pattern.Search.Tracks.empty, by simp, fun hafter => ?_⟩
    rw [Run.cancelled_markAborted, hstopped] at hafter
    exact absurd hafter (by decide)
  next hrunning =>
    have hmem (S : IdSet) := mem_candidates_iff (S := S) hr hfound (eq_false_of_ne_true hrunning)
    obtain ⟨resolved, hinitial, hfindings, hall⟩ := r.search.resolve_findings
      (r.candidates found).length reached 0 .empty (r.candidates found)
    refine ⟨resolved, ?_, fun S hS => (hmem S).1 (hinitial.subset hS), fun hafter S hS => ?_⟩
    · rw [hfindings]
      exact Pattern.Search.Tracks.foldl_step ((pairwise_sortKeys _).sublist hinitial.sublist)
    · rw [hall hafter]
      exact (hmem S).2 hS

theorem supports_of_isBest {resolved : List IdSet} (hcandidate : ∀ S ∈ resolved, r.IsCandidate S)
    (h : r.search.IsBest resolved B S) : r.Supports S B := by
  have hbody := bodyOf_eq_iff.1 h.bodyOf_eq
  exact ⟨hcandidate S h.mem, hbody, (isBody_iff hr hbody).1 h.isBody⟩

/-- When all candidates are resolved, the best of them is the best of the reference. -/
theorem isBest_iff {resolved : List IdSet} (hmem : ∀ S, S ∈ resolved ↔ r.IsCandidate S) :
    r.search.IsBest resolved B S ↔ r.IsFinding S B := by
  have hranks {T : IdSet} (hS : r.IsCandidate S) (hT : r.IsCandidate T) :
      Pattern.Outranks r.supportWeightIn S T ↔ Pattern.Outranks r.supportWeight S T :=
    Pattern.Outranks.congr (weighted_supportWeightIn hr hS.subset_population)
      (weighted_supportWeightIn hr hT.subset_population)
  constructor
  · intro h
    have hsupports := supports_of_isBest hr (fun S => (hmem S).1) h
    refine ⟨hsupports, fun T hT => (hranks hsupports.candidate hT.candidate).1 ?_⟩
    exact h.best T ((hmem T).2 hT.candidate) (bodyOf_eq_iff.2 hT.body)
  · intro h
    refine ⟨(hmem S).2 h.candidate, bodyOf_eq_iff.2 h.body, (isBody_iff hr h.body).2 h.large,
      fun T hT hTB => (hranks h.candidate ((hmem T).1 hT)).2 ?_⟩
    exact h.best T ⟨(hmem T).1 hT, bodyOf_eq_iff.1 hTB, h.large⟩

/-- Whatever a search enters supports its body, even if the search is cancelled later. -/
theorem supports_of_explore (h : (r.explore run).2.find? B = some S) : r.Supports S B := by
  obtain ⟨resolved, htracks, hcandidate, -⟩ := exists_tracks hr run
  exact supports_of_isBest hr hcandidate (htracks.sound B S h)

/-- An uncancelled search finds exactly what the reference asks for. -/
theorem find?_explore (hafter : (r.explore run).1.cancelled = false) :
    (r.explore run).2.find? B = some S ↔ r.IsFinding S B := by
  obtain ⟨resolved, htracks, hcandidate, hall⟩ := exists_tracks hr run
  have hmem (T : IdSet) : T ∈ resolved ↔ r.IsCandidate T := ⟨hcandidate T, hall hafter T⟩
  rw [htracks.find?_iff, isBest_iff hr hmem]

omit hr in
theorem settles_explore (run : Run α) : run.Settles (r.explore run).1 := by
  have hpasses := settles_collectIntersections r.isSupport r.eligible run
  unfold explore
  dsimp only
  split
  next hstopped => exact hpasses.settles (Run.settles_markAborted hstopped)
  next => exact hpasses.settles (Pattern.Search.settles_resolve ..)

omit hr in
theorem cancelled_explore (h : run.Unhindered) : (r.explore run).1.cancelled = false :=
  ((settles_explore run).unhindered h).running

/-- Every body that is large enough has a best support, for an unwatched search would find it. -/
theorem exists_isFinding (h : r.Supports S B) : ∃ T, r.IsFinding T B := by
  have hafter : (r.explore (Run.unwatched : Run Unit)).1.cancelled = false :=
    cancelled_explore Run.unhindered_unwatched
  obtain ⟨resolved, htracks, -, hall⟩ := exists_tracks hr (Run.unwatched : Run Unit)
  have hbody := bodyOf_eq_iff.2 h.body
  have hlarge := (isBody_iff hr h.body).2 h.large
  rw [← hbody] at hlarge
  obtain ⟨T, hT⟩ := htracks.complete S (hall hafter S h.candidate) hlarge
  rw [hbody] at hT
  exact ⟨T, (find?_explore hr hafter).1 hT⟩

end Candidates

end Reference
end RoleMining
