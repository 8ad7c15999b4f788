import Mathlib.Algebra.Order.BigOperators.Group.List
import Mathlib.Data.List.Perm.Subperm
import Mathlib.Tactic.Positivity
import RoleMining.Proofs.Binary64.Finite
import RoleMining.Proofs.Cluster.Joining
import RoleMining.Proofs.Number
import RoleMining.Proofs.Validity

/-!
# Coherent clusters

The figures of a cluster are those of its chunks. A mean lies between the smallest and the largest
of what it averages, a density between nothing and everything, and rounding to some places keeps
integer bounds. A group is measured before chunks join it and a cluster afterwards, but every chunk
that is clustered weighs something, so a cluster has as many members and properties as its session
asks for.
-/
namespace RoleMining

/-! ### Rounding between integers -/

section Rounding

variable {q : ℚ} {n : ℕ}

theorem roundEven_of_nonneg (hq : 0 ≤ q) : roundEven q = nearestEven q.num.natAbs q.den :=
  if_neg (not_lt.2 (Rat.num_nonneg.2 hq))

theorem natAbs_num_of_nonneg (hq : 0 ≤ q) : (q.num.natAbs : ℚ) = q * q.den := by
  rw [Nat.cast_natAbs, abs_of_nonneg (Rat.num_nonneg.2 hq), Rat.mul_den_eq_num]

theorem roundEven_le (hq : 0 ≤ q) (h : q ≤ n) : roundEven q ≤ n := by
  rw [roundEven_of_nonneg hq]
  refine Int.ofNat_le.2 (nearestEven_le q.den_pos ?_)
  have hden : (0 : ℚ) ≤ q.den := by positivity
  have hscaled := mul_le_mul_of_nonneg_right h hden
  rw [← natAbs_num_of_nonneg hq] at hscaled
  exact_mod_cast hscaled

theorem le_roundEven (h : (n : ℚ) ≤ q) : (n : ℤ) ≤ roundEven q := by
  have hq : 0 ≤ q := (Nat.cast_nonneg n).trans h
  rw [roundEven_of_nonneg hq]
  refine Int.ofNat_le.2 (le_nearestEven q.den_pos ?_)
  have hden : (0 : ℚ) ≤ q.den := by positivity
  have hscaled := mul_le_mul_of_nonneg_right h hden
  rw [← natAbs_num_of_nonneg hq] at hscaled
  exact_mod_cast hscaled

theorem tenPower_pos (places : ℕ) : (0 : ℚ) < (tenPower places : ℕ) := by
  have hpos : 0 < 10 ^ places := by positivity
  exact_mod_cast hpos

theorem roundPlaces_le (places : ℕ) (hq : 0 ≤ q) (h : q ≤ n) :
    Arithmetic.roundPlaces places q ≤ n := by
  have hscale := tenPower_pos places
  refine (div_le_iff₀ hscale).2 ?_
  have hround : roundEven (q * (tenPower places : ℕ)) ≤ ((n * tenPower places : ℕ) : ℤ) := by
    refine roundEven_le (by positivity) ?_
    rw [Nat.cast_mul]
    exact mul_le_mul_of_nonneg_right h hscale.le
  exact_mod_cast hround

theorem le_roundPlaces (places : ℕ) (h : (n : ℚ) ≤ q) :
    (n : ℚ) ≤ Arithmetic.roundPlaces places q := by
  have hscale := tenPower_pos places
  refine (le_div_iff₀ hscale).2 ?_
  have hround : ((n * tenPower places : ℕ) : ℤ) ≤ roundEven (q * (tenPower places : ℕ)) := by
    refine le_roundEven ?_
    rw [Nat.cast_mul]
    exact mul_le_mul_of_nonneg_right h hscale.le
  exact_mod_cast hround

/-- A rounded quotient is at most an integer that the quotient is at most. -/
theorem roundPlaces_ratio_le {a m : ℤ} (places : ℕ) (ha : 0 ≤ a) (hm : 0 < m) (h : a ≤ n * m) :
    Arithmetic.roundPlaces places (Arithmetic.ratio a m : ℚ) ≤ n := by
  have hm' : (0 : ℚ) < m := by exact_mod_cast hm
  have ha' : (0 : ℚ) ≤ a := by exact_mod_cast ha
  exact roundPlaces_le places (div_nonneg ha' hm'.le) ((div_le_iff₀ hm').2 (by exact_mod_cast h))

theorem le_roundPlaces_ratio {a m : ℤ} (places : ℕ) (hm : 0 < m) (h : n * m ≤ a) :
    (n : ℚ) ≤ Arithmetic.roundPlaces places (Arithmetic.ratio a m : ℚ) := by
  have hm' : (0 : ℚ) < m := by exact_mod_cast hm
  exact le_roundPlaces places ((le_div_iff₀ hm').2 (by exact_mod_cast h))

end Rounding

namespace Cluster

/-! ### Figures of chunks -/

/-- A mean between the smallest and the largest, and a density between nothing and everything. -/
structure Statistics.Bounded (s : Statistics ℚ) : Prop where
  smallest_le : (s.smallest : ℚ) ≤ s.mean
  le_largest : s.mean ≤ s.largest
  density_nonneg : 0 ≤ s.density
  density_le : s.density ≤ 1

section Figures

variable {cs : List Chunk} {n : ℕ} (hweights : ∀ k ∈ cs, 1 ≤ k.weight)
include hweights

/-- Chunks with at most so many properties make at most so many assignments for each member. -/
theorem assignments_le (hsizes : ∀ k ∈ cs, k.properties.length ≤ n) :
    (cs.map fun k => k.weight * (k.properties.length : ℤ)).sum ≤ n * (cs.map (·.weight)).sum := by
  rw [mul_comm, ← List.sum_map_mul_right]
  refine List.sum_le_sum fun k hk => ?_
  have hweight := hweights k hk
  exact mul_le_mul_of_nonneg_left (Int.ofNat_le.2 (hsizes k hk)) (by omega)

theorem le_assignments (hsizes : ∀ k ∈ cs, n ≤ k.properties.length) :
    n * (cs.map (·.weight)).sum ≤ (cs.map fun k => k.weight * (k.properties.length : ℤ)).sum := by
  rw [mul_comm, ← List.sum_map_mul_right]
  refine List.sum_le_sum fun k hk => ?_
  have hweight := hweights k hk
  exact mul_le_mul_of_nonneg_left (Int.ofNat_le.2 (hsizes k hk)) (by omega)

omit hweights in
theorem length_properties_le (hnodup : ∀ k ∈ cs, k.properties.Nodup) {k : Chunk} (hk : k ∈ cs) :
    k.properties.length ≤ (unionOf cs).size :=
  (List.subperm_of_subset (hnodup k hk) fun _ hx =>
    mem_foldl_addAll_empty.2 ⟨k, hk, hx⟩).length_le

theorem weight_le_sum {k : Chunk} (hk : k ∈ cs) : k.weight ≤ (cs.map (·.weight)).sum := by
  refine List.single_le_sum (fun w hw => ?_) _ (List.mem_map_of_mem hk)
  obtain ⟨k', hk', rfl⟩ := List.mem_map.1 hw
  have hweight := hweights k' hk'
  omega

/-- The figures of chunks that all weigh something. -/
theorem bounded_ofChunks (hnodup : ∀ k ∈ cs, k.properties.Nodup) (similarities : List ℚ) :
    (Statistics.ofChunks cs similarities).Bounded := by
  have hsmallest := le_assignments hweights fun k hk =>
    List.min?_getD_le_of_mem (k := 0) (List.mem_map_of_mem (f := (·.properties.length)) hk)
  have hlargest := assignments_le hweights fun k hk =>
    List.le_max?_getD_of_mem (k := 0) (List.mem_map_of_mem (f := (·.properties.length)) hk)
  have hunion := assignments_le hweights fun k hk => length_properties_le hnodup hk
  have hassignments := le_assignments (n := 0) hweights fun k _ => Nat.zero_le _
  simp only [← total_eq_sum] at hsmallest hlargest hunion hassignments
  rw [Int.natCast_zero, zero_mul] at hassignments
  unfold Statistics.ofChunks
  rcases cs.eq_nil_or_concat with rfl | ⟨_, last, hlast⟩
  · exact ⟨le_rfl, le_rfl, le_rfl, zero_le_one⟩
  · have hpositive : 0 < total (cs.map (·.weight)) := by
      have hmem : last ∈ cs := by simp [hlast]
      rw [total_eq_sum]
      exact (hweights last hmem).trans (weight_le_sum hweights hmem)
    have hmean := And.intro (le_roundPlaces_ratio 4 hpositive hsmallest)
      (roundPlaces_ratio_le 4 hassignments hpositive hlargest)
    dsimp only
    rw [if_neg hpositive.ne']
    by_cases hunheld : total (cs.map (·.weight)) * ((unionOf cs).size : ℤ) = 0
    · rw [if_pos hunheld]
      exact ⟨hmean.1, hmean.2, le_rfl, zero_le_one⟩
    · have hcells : 0 < total (cs.map (·.weight)) * ((unionOf cs).size : ℤ) :=
        lt_of_le_of_ne (by positivity) (Ne.symm hunheld)
      rw [if_neg hunheld]
      refine ⟨hmean.1, hmean.2, ?_, ?_⟩
      · exact_mod_cast le_roundPlaces_ratio (n := 0) 4 hcells (by simpa using hassignments)
      · refine (roundPlaces_ratio_le (n := 1) 4 hassignments hcells ?_).trans_eq Nat.cast_one
        rwa [Nat.cast_one, one_mul, mul_comm]

end Figures

/-! ### Groups before and after joining -/

section Joined

variable {policy : Policy} {chunks : List Chunk} {groups joined : List (List ℕ)}
variable {group group' : List ℕ}

/-- A group that chunks joined has all positions that it had. -/
theorem exists_subset_of_overlapped (h : overlapped policy chunks groups = .ok joined)
    (hgroup : group ∈ joined) : ∃ original ∈ groups, original ⊆ group := by
  unfold overlapped at h
  obtain ⟨rows, -, h⟩ := bind_eq_ok_iff.1 h
  obtain ⟨unions, -, h⟩ := bind_eq_ok_iff.1 h
  obtain ⟨added, -, h⟩ := bind_eq_ok_iff.1 h
  cases h
  obtain ⟨⟨original, index⟩, horiginal, rfl⟩ := List.mem_map.1 hgroup
  exact ⟨original, List.fst_mem_of_mem_zipIdx horiginal, List.subset_append_left _ _⟩

/-- A group weighs at most what one with more positions does. -/
theorem sum_picked_le (hnodup : group.Nodup) (hsub : group ⊆ group')
    (hweights : ∀ k ∈ picked chunks group', 1 ≤ k.weight) :
    ((picked chunks group).map (·.weight)).sum ≤ ((picked chunks group').map (·.weight)).sum := by
  obtain ⟨part, hperm, hpart⟩ := List.subperm_of_subset hnodup hsub
  rw [← ((picked_perm hperm).map _).sum_eq]
  refine ((hpart.filterMap _).map _).sum_le_sum fun w hw => ?_
  obtain ⟨k, hk, rfl⟩ := List.mem_map.1 hw
  have hweight := hweights k hk
  omega

theorem mem_picked_tidy {k : Chunk} : k ∈ picked chunks (tidy group) ↔ k ∈ picked chunks group := by
  simp only [mem_picked_iff, mem_tidy]

theorem size_unionOf_picked_le (hsub : group ⊆ group') :
    (unionOf (picked chunks group)).size ≤ (unionOf (picked chunks group')).size := by
  refine (List.subperm_of_subset (IdSet.nodup_toList _) fun x hx => ?_).length_le
  obtain ⟨k, hk, hxk⟩ := mem_foldl_addAll_empty.1 hx
  obtain ⟨pos, hpos, hat⟩ := mem_picked_iff.1 hk
  exact mem_foldl_addAll_empty.2 ⟨k, mem_picked_iff.2 ⟨pos, hsub hpos, hat⟩, hxk⟩

end Joined

/-! ### Clusters in their order -/

/-- A cluster comes before another when it counts more members, or as many and its properties do not
come later. -/
def Comes (c d : Cluster) : Prop :=
  d.statistics.membersCount < c.statistics.membersCount ∨
    c.statistics.membersCount = d.statistics.membersCount ∧ c.properties.toList ≤ d.properties.toList

/-- The chunks of a cluster, which are those at the positions of a group in ascending order. -/
structure OfTidy (chunks : List Chunk) (group : List ℕ) (c : Cluster) : Prop where
  lt : ∀ pos ∈ tidy group, pos < chunks.length
  properties_eq : c.properties = unionOf (picked chunks (tidy group))
  chunkKeys_eq : c.chunkKeys = (picked chunks (tidy group)).map (·.properties)
  statistics_eq : ∃ similarities,
    c.statistics = .ofChunks (picked chunks (tidy group)) similarities

section Assembled

variable {mode : Mode} {chunks : List Chunk} {similarities : Similarities}
variable {groups : List (List ℕ)} {clusters : List Cluster} {c : Cluster}

theorem exists_ofTidy (h : assemble mode chunks similarities groups = .ok clusters)
    (hc : c ∈ clusters) : ∃ group ∈ groups, OfTidy chunks group c := by
  obtain ⟨drafts, hdrafts, h⟩ := bind_eq_ok_iff.1 h
  cases h
  obtain ⟨⟨d, index⟩, hd, rfl⟩ := List.mem_map.1 hc
  have hdraft := List.mem_mergeSort.1 (List.fst_mem_of_mem_zipIdx hd)
  obtain ⟨group, hgroup, hmade⟩ := (mem_of_mapM_eq_ok hdrafts).1 hdraft
  obtain ⟨cs, hcs, hmade⟩ := bind_eq_ok_iff.1 hmade
  cases hmade
  obtain ⟨hlt, rfl⟩ := chunksAt_eq_ok_iff.1 hcs
  exact ⟨group, hgroup, hlt, rfl, rfl, _, rfl⟩

theorem ordered_iff (a b : Draft) : Draft.ordered a b = true ↔
    b.statistics.membersCount < a.statistics.membersCount ∨
      a.statistics.membersCount = b.statistics.membersCount ∧
        a.properties.toList ≤ b.properties.toList := by
  simp [Draft.ordered, IdSet.keyAtMost_iff]

theorem id_number (drafts : List Draft) :
    (number mode drafts).map (·.id) = List.range' 1 (number mode drafts).length := by
  have hids : (number mode drafts).map (·.id) = (drafts.zipIdx.map Prod.snd).map (1 + ·) := by
    rw [number, List.map_map, List.map_map]
    exact List.map_congr_left fun x _ => Nat.add_comm _ _
  rw [hids, List.zipIdx_map_snd, List.map_add_range', number, List.length_map,
    List.length_zipIdx]

/-- Clusters come in their order, numbered from one. -/
theorem comes_assemble (h : assemble mode chunks similarities groups = .ok clusters) :
    clusters.Pairwise Comes ∧ clusters.map (·.id) = List.range' 1 clusters.length := by
  obtain ⟨drafts, -, h⟩ := bind_eq_ok_iff.1 h
  cases h
  refine ⟨List.pairwise_map.2 ?_, id_number _⟩
  have hsorted := pairwise_mergeSort_le ordered_iff drafts
  have hdrafts : (drafts.mergeSort Draft.ordered).zipIdx.map Prod.fst =
      drafts.mergeSort Draft.ordered := List.zipIdx_map_fst ..
  rw [← hdrafts, List.pairwise_map] at hsorted
  exact hsorted.imp fun h => (ordered_iff _ _).1 h

end Assembled

end Cluster

namespace Clustering

variable {finder : CommunityFinder} {policy : Policy} {chunks : List Chunk} {made : Partition}
variable {large joined : List (List ℕ)} {clusters : List Cluster} {group : List ℕ}

/-- A group that others joined was large enough before. -/
theorem Steps.exists_large (h : Steps finder policy chunks made large joined clusters)
    (hgroup : group ∈ joined) : ∃ original ∈ large, original ⊆ group := by
  have hjoined := h.joined_eq
  unfold joinedGroups at hjoined
  split_ifs at hjoined
  · exact Cluster.exists_subset_of_overlapped hjoined hgroup
  · cases hjoined
    exact ⟨group, hgroup, fun _ => id⟩

theorem Steps.isLarge_of_mem (h : Steps finder policy chunks made large joined clusters)
    (hgroup : group ∈ large) : Cluster.isLarge policy chunks group = true := by
  have hlarge := h.large_eq
  rw [Cluster.largeGroups_eq fun _ => (divides_partitionOf h.made_eq).lt] at hlarge
  cases hlarge
  exact (List.mem_filter.1 hgroup).2

/-- Every chunk that is clustered weighs something: either all chunks made up a table, which takes
no other weights, or a chunk is a group by itself, and a large one. -/
theorem Steps.one_le_weight (h : Steps finder policy chunks made large joined clusters)
    (hmembers : ∀ k ∈ chunks, k.members ≠ [])
    (hmin : policy.minMembers.isNaN = false ∧ policy.minMembers.below 1 = false)
    (hgroup : group ∈ joined) : ∀ k ∈ Cluster.picked chunks group, 1 ≤ k.weight := by
  have htable (hrows : ∃ rows, Chunk.expand chunks = .ok rows) :
      ∀ k ∈ Cluster.picked chunks group, 1 ≤ k.weight := fun k hk =>
    (Chunk.exists_expand_iff hmembers).1 hrows k (Cluster.mem_of_mem_picked hk)
  have hmade := h.made_eq
  unfold partitionOf at hmade
  split at hmade
  next =>
    obtain ⟨g, hg, -⟩ := bind_eq_ok_iff.1 hmade
    obtain ⟨rows, hrows, -⟩ := bind_eq_ok_iff.1 hg
    exact htable ⟨rows, hrows⟩
  next =>
    have hjoined := h.joined_eq
    unfold joinedGroups at hjoined
    split_ifs at hjoined
    · obtain ⟨rows, hrows, -⟩ := bind_eq_ok_iff.1 hjoined
      exact htable ⟨rows, hrows⟩
    · cases hjoined
      cases hmade
      obtain ⟨pos, -, rfl⟩ := List.mem_map.1 (h.large_sublist.mem hgroup)
      have hlarge := h.isLarge_of_mem hgroup
      intro k hk
      have hpicked : Cluster.picked chunks [pos] = [k] := by
        obtain ⟨_, hpos, hat⟩ := Cluster.mem_picked_iff.1 hk
        rw [List.mem_singleton.1 hpos] at hat
        simp [Cluster.picked, hat]
      by_contra hlight
      have hone : (Number.int k.weight).below 1 = true := decide_eq_true (not_le.1 hlight)
      have hsmall := Number.below_of_below_of_atMost hone
        (Number.atMost_of_not_below rfl hmin.1 hmin.2)
      simp [Cluster.isLarge, hpicked, hsmall] at hlarge

/-- After joining a group has as many members and properties as it had to have before. -/
theorem Steps.not_below (h : Steps finder policy chunks made large joined clusters)
    (hmembers : ∀ k ∈ chunks, k.members ≠ [])
    (hmin : policy.minMembers.isNaN = false ∧ policy.minMembers.below 1 = false)
    (hgroup : group ∈ joined) :
    (Number.int ((Cluster.picked chunks (Cluster.tidy group)).map (·.weight)).sum).below
        policy.minMembers = false ∧
      (Number.int (Cluster.unionOf (Cluster.picked chunks (Cluster.tidy group))).size).below
        policy.minProperties = false := by
  obtain ⟨original, horiginal, hkept⟩ := h.exists_large hgroup
  have hnodup := (List.nodup_flatten.1 h.nodup_large).1 original horiginal
  have hsub : original ⊆ Cluster.tidy group := fun pos hpos => Cluster.mem_tidy.2 (hkept hpos)
  have hcount := Cluster.sum_picked_le hnodup hsub fun k hk =>
    h.one_le_weight hmembers hmin hgroup k (Cluster.mem_picked_tidy.1 hk)
  have hsize : ((Cluster.unionOf (Cluster.picked chunks original)).size : ℤ) ≤
      (Cluster.unionOf (Cluster.picked chunks (Cluster.tidy group))).size :=
    Int.ofNat_le.2 (Cluster.size_unionOf_picked_le hsub)
  have hlarge := h.isLarge_of_mem horiginal
  unfold Cluster.isLarge at hlarge
  simp only [Bool.not_eq_true', Bool.or_eq_false_iff] at hlarge
  exact ⟨Bool.eq_false_of_not_eq_true fun hfew =>
      Bool.false_ne_true (hlarge.1.symm.trans (Number.below_of_le hcount hfew)),
    Bool.eq_false_of_not_eq_true fun hfew =>
      Bool.false_ne_true (hlarge.2.symm.trans (Number.below_of_le hsize hfew))⟩

end Clustering

/-! ### Chunks of records -/

namespace Chunk

variable {kind : Kind} {propertyWeights : Ledger String ℤ} {records : List Record} {cs : List Chunk}

theorem properties_eq_toList {c : Chunk} (hc : c ∈ aggregate kind propertyWeights records) :
    c.properties = c.propertySet.toList := by
  obtain ⟨r, -, rfl⟩ := mem_aggregate_iff.1 hc
  rw [propertySet_ofGroup]
  rfl

/-- Chunks weigh what the records with their keys weigh, unless those with one key weigh too much
for a machine word. -/
theorem sum_weight_eq_weightOf (hcs : ∀ k ∈ cs, k ∈ aggregate kind propertyWeights records)
    (hnodup : (cs.map (·.propertySet)).Nodup)
    (hfits : ∀ key ∈ cs.map (·.properties),
      weightOf (records.filter (·.properties.toList = key)) < 2 ^ 63) :
    (cs.map (·.weight)).sum =
      weightOf (records.filter fun r => r.properties.toList ∈ cs.map (·.properties)) := by
  have hkey {k : Chunk} (hk : k ∈ cs) (r : Record) :
      r.properties.toList = k.properties ↔ r.properties = k.propertySet := by
    rw [properties_eq_toList (hcs k hk), IdSet.toList_inj]
  have hgroup {k : Chunk} (hk : k ∈ cs) :
      records.filter (·.properties.toList = k.properties) = groupOf records k.propertySet :=
    List.filter_congr fun r _ => decide_eq_decide.2 (hkey hk r)
  have hweight : ∀ k ∈ cs, k.weight = weightOf (groupOf records k.propertySet) := by
    intro k hk
    refine weight_of_mem_aggregate (hcs k hk) ?_
    have hlight := hfits k.properties (List.mem_map_of_mem hk)
    rwa [hgroup hk] at hlight
  have hcovered : ∀ r ∈ records.filter fun r => r.properties.toList ∈ cs.map (·.properties),
      r.properties ∈ cs.map (·.propertySet) := by
    intro r hr
    obtain ⟨k, hk, he⟩ := List.mem_map.1 (of_decide_eq_true (List.mem_filter.1 hr).2)
    exact List.mem_map.2 ⟨k, hk, ((hkey hk r).1 he.symm).symm⟩
  rw [weightOf, ← sum_groups hnodup hcovered, List.map_map]
  refine congrArg List.sum (List.map_congr_left fun k hk => ?_)
  rw [hweight k hk, weightOf, Function.comp_apply, List.filter_filter, groupOf]
  refine congrArg weightOf (List.filter_congr fun r _ => ?_)
  rw [Bool.eq_iff_iff, Bool.and_eq_true, decide_eq_true_eq, decide_eq_true_eq]
  refine (and_iff_left_of_imp fun he => ?_).symm
  exact List.mem_map.2 ⟨k, hk, ((hkey hk r).2 he).symm⟩

end Chunk

/-! ### Coherence -/

/-- What a cluster says of a population, under a policy. -/
structure Cluster.Coherent (policy : Policy) (records : List Record) (c : Cluster) : Prop where
  nodup : c.chunkKeys.Nodup
  /-- Everybody with one of the property sets is counted, unless one of these weighs too much for a
  machine word. -/
  counted : (∀ key ∈ c.chunkKeys, weightOf
      ((Analysis.analysed policy.mode records).filter (·.properties.toList = key)) < 2 ^ 63) →
    c.statistics.membersCount = weightOf
      ((Analysis.analysed policy.mode records).filter (·.properties.toList ∈ c.chunkKeys))
  members : policy.minMembers.atMost (.int c.statistics.membersCount) = true
  mem_properties : ∀ x, x ∈ c.properties ↔ ∃ key ∈ c.chunkKeys, x ∈ key
  properties : policy.minProperties.atMost (.int c.properties.size) = true
  /-- The figures are those of the chunks with the cluster's keys, and exact ones are bounded. -/
  figures : ∃ cs similarities, (∀ k ∈ cs, k ∈ Clustering.chunksFor policy.mode records) ∧
    c.chunkKeys = cs.map (·.properties) ∧ c.statistics = .ofChunks cs similarities ∧
    ∀ exact : List ℚ, (Statistics.ofChunks cs exact).Bounded

namespace Clustering

variable {α : Type} {policy : Policy} {records : List Record} {run after : Run α}
variable {clustering : Clustering}

theorem coherent_of_steps {finder : CommunityFinder} {session : Session}
    (hpolicy : session.check = .ok policy) {made : Partition} {large joined : List (List ℕ)}
    {clusters : List Cluster}
    (hsteps : Steps finder policy (chunksFor policy.mode records) made large joined clusters)
    {c : Cluster} (hc : c ∈ clusters) : c.Coherent policy records := by
  have hmin := Session.one_le_minMembers_of_check hpolicy
  obtain ⟨kind, hchunks⟩ := Analysis.exists_chunksFor_eq policy.mode records
  have hmembers : ∀ k ∈ chunksFor policy.mode records, k.members ≠ [] := by
    rw [hchunks]
    exact fun _ => Chunk.members_ne_nil
  have hkeys := nodup_propertySet_of_aggregate hchunks.symm
  obtain ⟨group, hgroup, hlt, hproperties, hchunkKeys, similarities, hstatistics⟩ :=
    Cluster.exists_ofTidy hsteps.clusters_eq hc
  have hpicked : ∀ k ∈ Cluster.picked (chunksFor policy.mode records) (Cluster.tidy group),
      k ∈ Chunk.aggregate kind .empty (Analysis.analysed policy.mode records) := fun k hk =>
    hchunks ▸ Cluster.mem_of_mem_picked hk
  have hdistinct := Cluster.nodup_picked hkeys hlt
    ((List.mergeSort_perm _ _).nodup_iff.2 (nodup_eraseDups group))
  have hcount : c.statistics.membersCount = ((Cluster.picked (chunksFor policy.mode records)
      (Cluster.tidy group)).map (·.weight)).sum := by
    rw [hstatistics]
    exact total_eq_sum _
  obtain ⟨hfew, hpoor⟩ := hsteps.not_below hmembers hmin hgroup
  constructor
  case nodup =>
    rw [hchunkKeys]
    exact List.Nodup.of_map IdSet.ofList (by rwa [List.map_map])
  case counted =>
    intro hfits
    rw [hchunkKeys] at hfits
    rw [hcount, hchunkKeys]
    exact Chunk.sum_weight_eq_weightOf hpicked hdistinct hfits
  case members =>
    rw [hcount]
    exact Number.atMost_of_not_below hmin.1 rfl hfew
  case mem_properties =>
    intro x
    rw [hproperties, hchunkKeys]
    simp [Cluster.mem_foldl_addAll_empty, Cluster.unionOf]
  case properties =>
    rw [hproperties]
    exact Number.atMost_of_not_below (Session.one_le_minProperties_of_check hpolicy).1 rfl hpoor
  case figures =>
    refine ⟨_, similarities, fun k hk => Cluster.mem_of_mem_picked hk, hchunkKeys, hstatistics,
      Cluster.bounded_ofChunks (fun k hk => ?_) fun k hk => ?_⟩
    · exact hsteps.one_le_weight hmembers hmin hgroup k (Cluster.mem_picked_tidy.1 hk)
    · rw [Chunk.properties_eq_toList (hpicked k hk)]
      exact IdSet.nodup_toList _

/-- Under a checked session every cluster is coherent, whatever the way to find communities and
wherever the run is stopped, and the clusters come in their order, numbered from one. -/
theorem clusters_are_coherent (finder : CommunityFinder) {session : Session}
    (hpolicy : session.check = .ok policy)
    (h : ofPopulation finder policy records run = .ok (after, clustering)) :
    (∀ c ∈ clustering.clusters, c.Coherent policy records) ∧
      clustering.clusters.Pairwise Cluster.Comes ∧
      clustering.clusters.map (·.id) = List.range' 1 clustering.clusters.length := by
  rcases made_ofPopulation finder policy records run after clustering h with
    ⟨hnone, -⟩ | ⟨made, large, joined, clusters, hsteps, hmade⟩
  · rw [hnone]
    exact ⟨by simp, .nil, rfl⟩
  · rw [hmade]
    exact ⟨fun c hc => coherent_of_steps hpolicy hsteps hc,
      Cluster.comes_assemble hsteps.clusters_eq⟩

/-- Every property set by itself, if it has at least two members. -/
def pairsOfSets : Session where
  clusteringMethod := .str "exact"
  minMembers := .int 2

def pairsOfSetsPolicy : Policy := { twoOrMore with strategy := .exact }

theorem check_pairsOfSets : pairsOfSets.check = .ok pairsOfSetsPolicy := by
  have hvalid : pairsOfSets.complaints = .ok [] := by decide +kernel
  unfold Session.check
  rw [hvalid]
  rfl

/-- Ann and Bob hold the same roles, and Ann stands for twelve users. -/
def unevenUsers : List Record :=
  [.single "dan" (.ofList ["art"]), ⟨"ann", .ofList ["dev", "ops"], 12, by decide⟩,
    .single "bob" (.ofList ["dev", "ops"])]

theorem uneven_users_make_a_coherent_cluster : ∃ (after : Run Unit) (clustering : Clustering),
    pairsOfSets.check = .ok pairsOfSetsPolicy ∧
    ofPopulation Community.best pairsOfSetsPolicy unevenUsers Run.unwatched =
      .ok (after, clustering) ∧
    clustering.clusters.map (fun c => (c.id, c.statistics.membersCount, c.properties.toList)) =
      [(1, 13, ["dev", "ops"])] ∧
    ∀ c ∈ clustering.clusters, c.Coherent pairsOfSetsPolicy unevenUsers := by
  have hchunks : chunksFor .user unevenUsers =
      [{ kind := .users, members := ["ann", "bob"], properties := ["dev", "ops"], weight := 13,
         memberWeights := [12, 1] },
        { kind := .users, members := ["dan"], properties := ["art"], weight := 1,
          memberWeights := [1] }] := by
    cbv
  have hread : ((ofPopulation Community.best pairsOfSetsPolicy unevenUsers
      (Run.unwatched : Run Unit)).toOption.map fun x => x.2.clusters.map fun c =>
        (c.id, c.statistics.membersCount, c.properties.toList)) =
      some [(1, 13, ["dev", "ops"])] := by
    unfold ofPopulation
    rw [show pairsOfSetsPolicy.mode = .user from rfl, hchunks]
    decide +kernel
  obtain ⟨⟨after, clustering⟩, h, hclusters⟩ := exists_ok_of_toOption_map hread
  exact ⟨after, clustering, check_pairsOfSets, h, hclusters,
    (clusters_are_coherent Community.best check_pairsOfSets h).1⟩

/-- A cluster of a property set that weighs more than a machine word holds counts too few. -/
theorem heavy_cluster_is_undercounted :
    pairsOfSets.check = .ok pairsOfSetsPolicy ∧
    ((ofPopulation Community.best pairsOfSetsPolicy Analysis.heavyUsers
      (Run.unwatched : Run Unit)).toOption.map fun x => x.2.clusters.map fun c =>
        (c.chunkKeys, c.statistics.membersCount)) = some [([["dev", "ops"]], 5)] ∧
    weightOf (Analysis.heavyUsers.filter (·.properties.toList ∈ [["dev", "ops"]])) =
      2 ^ 64 + 5 :=
  ⟨check_pairsOfSets, by decide +kernel, by decide +kernel⟩

end Clustering
end RoleMining
