import Mathlib.Algebra.BigOperators.Group.List.Basic
import Mathlib.Algebra.Order.Ring.Rat
import Mathlib.Data.List.Perm.Basic
import Mathlib.Tactic.FieldSimp
import RoleMining.Cluster.SessionStatistics
import RoleMining.Proofs.Size

/-!
# Removing clusters

The statistics of a session are brought up to date when a cluster is discarded, without the other
clusters being looked at. The counts are those of the clusters that are left in any arithmetic, and
so is the mean density over exact rationals; once no cluster is left all figures are zero.
-/
namespace RoleMining.SessionStatistics

section Counts

variable {α : Type} [Arithmetic α]

/-- The clusters at all positions but some, in their order. -/
def remaining (clusters : List (ClusterFigures α)) (removed : List ℕ) : List (ClusterFigures α) :=
  ((List.range clusters.length).filter (· ∉ removed)).filterMap (clusters[·]?)

/-- The statistics once the clusters at some positions are discarded, one after the other. -/
def afterRemoving (clusters : List (ClusterFigures α)) (removed : List ℕ) : SessionStatistics α :=
  (removed.filterMap (clusters[·]?)).foldl without (ofClusters clusters)

/-- The statistics count some clusters, and are all zero if there are none. -/
structure Counts (s : SessionStatistics α) (clusters : List (ClusterFigures α)) : Prop where
  processed_eq : s.processed = (clusters.map (·.members)).sum
  clusterCount_eq : s.clusterCount = clusters.length
  eq_empty : clusters = [] → s = empty

variable {s : SessionStatistics α} {clusters rest removed : List (ClusterFigures α)}
variable {c : ClusterFigures α}

theorem counts_empty : (empty : SessionStatistics α).Counts [] := ⟨rfl, rfl, fun _ => rfl⟩

theorem counts_ofClusters (clusters : List (ClusterFigures α)) :
    (ofClusters clusters).Counts clusters := by
  cases clusters with
  | nil => exact counts_empty
  | cons c rest => exact ⟨total_eq_sum _, rfl, fun h => by cases h⟩

theorem Counts.processed_congr (h : s.Counts clusters) :
    s.processed = (ofClusters clusters).processed :=
  h.processed_eq.trans (counts_ofClusters clusters).processed_eq.symm

theorem Counts.clusterCount_congr (h : s.Counts clusters) :
    s.clusterCount = (ofClusters clusters).clusterCount :=
  h.clusterCount_eq.trans (counts_ofClusters clusters).clusterCount_eq.symm

theorem Counts.of_perm (h : s.Counts clusters) (hperm : clusters.Perm rest) : s.Counts rest where
  processed_eq := h.processed_eq.trans (hperm.map _).sum_eq
  clusterCount_eq := h.clusterCount_eq.trans (congrArg _ hperm.length_eq)
  eq_empty hnil := h.eq_empty (hnil ▸ hperm).eq_nil

/-- Discarding a cluster leaves the counts of the others. -/
theorem Counts.without (h : s.Counts clusters) (hperm : clusters.Perm (c :: rest)) :
    (s.without c).Counts rest := by
  have hcount : s.clusterCount - 1 = rest.length := by
    rw [h.clusterCount_eq, hperm.length_eq, List.length_cons]
    omega
  have hprocessed : s.processed - c.members = (rest.map (·.members)).sum := by
    rw [h.processed_eq, (hperm.map _).sum_eq, List.map_cons, List.sum_cons, add_sub_cancel_left]
  unfold SessionStatistics.without
  dsimp only
  rw [hcount]
  cases rest with
  | nil => exact counts_empty
  | cons d rest => exact ⟨hprocessed, rfl, fun hnil => by cases hnil⟩

theorem Counts.foldl_without (h : s.Counts clusters) (hperm : clusters.Perm (removed ++ rest)) :
    (removed.foldl SessionStatistics.without s).Counts rest := by
  induction removed generalizing s clusters with
  | nil => exact h.of_perm hperm
  | cons c removed ih => exact ih (h.without hperm) (List.Perm.refl _)

end Counts

/-! ### Positions -/

section Positions

variable {α : Type} {xs : List α} {removed : List ℕ}

theorem filterMap_range_getElem? (xs : List α) :
    (List.range xs.length).filterMap (xs[·]?) = xs := by
  have hsome : (List.range xs.length).map (xs[·]?) = xs.map some :=
    List.ext_getElem (by simp) fun i hi _ => by simp
  calc (List.range xs.length).filterMap (xs[·]?)
      = ((List.range xs.length).map (xs[·]?)).filterMap id := by rw [List.filterMap_map]; rfl
    _ = (xs.map some).filterMap id := by rw [hsome]
    _ = xs := by simp [List.filterMap_map]

/-- Distinct positions and all others together have every element once. -/
theorem perm_filterMap_append (hremoved : removed.Nodup) :
    xs.Perm (removed.filterMap (xs[·]?) ++
      ((List.range xs.length).filter (· ∉ removed)).filterMap (xs[·]?)) := by
  have hinside : removed.filterMap (xs[·]?) =
      (removed.filter (· < xs.length)).filterMap (xs[·]?) := by
    rw [List.filterMap_filter]
    refine List.filterMap_congr fun i _ => ?_
    split_ifs with hi
    · rfl
    · exact List.getElem?_eq_none (by simpa using hi)
  have hsplit : (List.range xs.length).Perm
      (removed.filter (· < xs.length) ++ (List.range xs.length).filter (· ∉ removed)) := by
    refine (List.perm_ext_iff_of_nodup List.nodup_range ?_).2 fun i => ?_
    · refine (hremoved.filter _).append (List.nodup_range.filter _) fun i hi hi' => ?_
      exact of_decide_eq_true (List.mem_filter.1 hi').2 (List.mem_filter.1 hi).1
    · simp only [List.mem_append, List.mem_filter, List.mem_range, decide_eq_true_eq]
      tauto
  rw [hinside, ← List.filterMap_append]
  exact (List.Perm.of_eq (filterMap_range_getElem? xs).symm).trans (hsplit.filterMap _)

end Positions

/-! ### Exact rationals -/

section Exact

variable {clusters rest removed : List (ClusterFigures ℚ)} {c : ClusterFigures ℚ}

theorem mean_eq (xs : List ℚ) : Arithmetic.mean xs = xs.sum / xs.length := by
  have hsum : Arithmetic.sum xs = xs.sum := List.sum_eq_foldl.symm
  rw [← hsum]
  rfl

theorem meanDensity_ofClusters (hne : clusters ≠ []) :
    (ofClusters clusters).meanDensity = (clusters.map (·.density)).sum / clusters.length := by
  unfold ofClusters
  rw [if_neg (by simpa using hne)]
  exact (mean_eq _).trans (by rw [List.length_map])

/-- What is left of the mean when a cluster is discarded is the mean of the others. -/
theorem meanDensity_without (hperm : clusters.Perm (c :: rest)) (hne : rest ≠ []) :
    ((ofClusters clusters).without c).meanDensity =
      (rest.map (·.density)).sum / rest.length := by
  have hcount : (ofClusters clusters).clusterCount = (rest.length : ℤ) + 1 := by
    rw [(counts_ofClusters clusters).clusterCount_eq, hperm.length_eq, List.length_cons]
    push_cast
    rfl
  have hlength : (rest.length : ℚ) ≠ 0 := by simpa using hne
  have hmean : (ofClusters clusters).meanDensity * (rest.length + 1) =
      c.density + (rest.map (·.density)).sum := by
    rw [meanDensity_ofClusters (by rintro rfl; simpa using hperm.length_eq), (hperm.map _).sum_eq,
      hperm.length_eq, List.map_cons, List.sum_cons, List.length_cons]
    push_cast
    field_simp
  have hleft : ¬ (ofClusters clusters).clusterCount - 1 ≤ 0 := by
    have hpos := List.length_pos_iff.2 hne
    omega
  unfold without
  rw [if_neg hleft, hcount, add_sub_cancel_right]
  change ((ofClusters clusters).meanDensity * (((rest.length : ℤ) + 1 : ℤ) : ℚ) - c.density) /
    ((rest.length : ℤ) : ℚ) = _
  push_cast
  rw [hmean, add_sub_cancel_left]

/-- Statistics are told by their counts and their mean. -/
theorem eq_ofClusters {s : SessionStatistics ℚ} (h : s.Counts rest)
    (hmean : rest ≠ [] → s.meanDensity = (rest.map (·.density)).sum / rest.length) :
    s = ofClusters rest := by
  rcases eq_or_ne rest [] with rfl | hne
  · exact h.eq_empty rfl
  · have hprocessed := h.processed_congr
    have hclusterCount := h.clusterCount_congr
    have hdensity := (hmean hne).trans (meanDensity_ofClusters hne).symm
    cases s
    cases hs : ofClusters rest
    rw [hs] at hprocessed hclusterCount hdensity
    rw [mk.injEq]
    exact ⟨hprocessed, hclusterCount, hdensity⟩

theorem ofClusters_of_perm (hperm : clusters.Perm rest) : ofClusters clusters = ofClusters rest := by
  refine eq_ofClusters ((counts_ofClusters clusters).of_perm hperm) fun hne => ?_
  have hne' : clusters ≠ [] := fun hnil => hne (List.nil_perm.1 (hnil ▸ hperm))
  rw [meanDensity_ofClusters hne', (hperm.map _).sum_eq, hperm.length_eq]

theorem without_ofClusters (hperm : clusters.Perm (c :: rest)) :
    (ofClusters clusters).without c = ofClusters rest :=
  eq_ofClusters ((counts_ofClusters clusters).without hperm) (meanDensity_without hperm)

/-- Over exact rationals all figures are those of the clusters that are left. -/
theorem foldl_without_ofClusters (hperm : clusters.Perm (removed ++ rest)) :
    removed.foldl without (ofClusters clusters) = ofClusters rest := by
  induction removed generalizing clusters with
  | nil => exact ofClusters_of_perm hperm
  | cons c removed ih =>
    rw [List.foldl_cons, without_ofClusters hperm]
    exact ih (List.Perm.refl _)

end Exact

/-- Discarding clusters one by one, in any order, leaves the counts of the other clusters, and all
figures at zero when there are no others; over exact rationals it leaves the very statistics that
the other clusters have. Those tell how many members the clusters have together, how many clusters
there are, and the mean of the densities. -/
theorem removing_one_by_one_recomputes {removed : List ℕ} (hremoved : removed.Nodup) :
    (∀ (α : Type) [Arithmetic α] (clusters : List (ClusterFigures α)),
      (afterRemoving clusters removed).processed =
          (ofClusters (remaining clusters removed)).processed ∧
        (afterRemoving clusters removed).clusterCount =
          (ofClusters (remaining clusters removed)).clusterCount ∧
        (remaining clusters removed = [] → afterRemoving clusters removed = empty) ∧
        (ofClusters (remaining clusters removed)).processed =
          ((remaining clusters removed).map (·.members)).sum ∧
        (ofClusters (remaining clusters removed)).clusterCount =
          (remaining clusters removed).length) ∧
    ∀ clusters : List (ClusterFigures ℚ),
      afterRemoving clusters removed = ofClusters (remaining clusters removed) ∧
        (remaining clusters removed ≠ [] →
          (ofClusters (remaining clusters removed)).meanDensity =
            ((remaining clusters removed).map (·.density)).sum /
              (remaining clusters removed).length) := by
  constructor
  · intro α _ clusters
    have hcounts : (afterRemoving clusters removed).Counts (remaining clusters removed) :=
      (counts_ofClusters clusters).foldl_without (perm_filterMap_append hremoved)
    have hleft := counts_ofClusters (remaining clusters removed)
    exact ⟨hcounts.processed_congr, hcounts.clusterCount_congr, hcounts.eq_empty,
      hleft.processed_eq, hleft.clusterCount_eq⟩
  · exact fun clusters =>
      ⟨foldl_without_ofClusters (perm_filterMap_append hremoved), meanDensity_ofClusters⟩

/-- The first of three clusters goes last. -/
theorem third_and_first_are_removed :
    let clusters : List (ClusterFigures ℚ) := [⟨6, 1⟩, ⟨5, 1 / 2⟩, ⟨2, 1 / 3⟩]
    [2, 0].Nodup ∧ afterRemoving clusters [2, 0] = ofClusters [⟨5, 1 / 2⟩] ∧
      (afterRemoving clusters [2, 0]).meanDensity = 1 / 2 ∧
      (afterRemoving clusters [2, 0]).processed = 5 ∧
      afterRemoving clusters [2, 0, 1] = empty := by
  intro clusters
  have hleft : remaining clusters [2, 0] = [⟨5, 1 / 2⟩] := rfl
  have hnodup : [2, 0].Nodup := by decide
  obtain ⟨hcounts, hexact⟩ := removing_one_by_one_recomputes hnodup
  obtain ⟨hsame, hmean⟩ := hexact clusters
  obtain ⟨-, -, -, hprocessed, -⟩ := hcounts ℚ clusters
  refine ⟨hnodup, hsame, ?_, ?_, ?_⟩
  · rw [hsame, hmean (by simp [hleft]), hleft]
    norm_num
  · rw [hsame, hprocessed, hleft]
    rfl
  · exact ((removing_one_by_one_recomputes (by decide)).1 ℚ _).2.2.1 rfl

end RoleMining.SessionStatistics
