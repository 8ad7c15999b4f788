import RoleMining.Analysis.Basic
import RoleMining.Proofs.Aggregation
import RoleMining.Proofs.Results
import RoleMining.Proofs.Weight

/-!
# What a cluster gathers

A cluster is made of chunks at distinct positions, so it takes every chunk once, even when chunks
join further groups. Its members and properties are theirs, and its count adds up their weights. A
chunk weighs what its records weigh, as long as that fits a machine word.
-/
namespace RoleMining

/-! ### Weights of chunks -/

namespace Chunk

variable {kind : Kind} {propertyWeights : Ledger String ℤ} {records : List Record} {c : Chunk}

/-- Words of any width hold a sum that fits the signed ones. -/
theorem Width.sum_of_lt {weights xs : List ℤ} (hnonneg : 0 ≤ xs.sum) (hlt : xs.sum < 2 ^ 63) :
    (Width.holding weights).sum xs = xs.sum := by
  unfold Width.holding Width.sum
  rw [total_eq_sum]
  split_ifs
  · refine Int.bmod_eq_of_le ?_ ?_ <;> (unfold Word.count; omega)
  · refine Int.emod_eq_of_lt hnonneg ?_
    unfold Word.unsignedEnd Word.count
    omega
  · rfl

theorem nodup_propertySet_aggregate (kind : Kind) (propertyWeights : Ledger String ℤ)
    (records : List Record) :
    ((aggregate kind propertyWeights records).map (·.propertySet)).Nodup := by
  unfold aggregate
  rw [((List.mergeSort_perm _ _).map _).nodup_iff, List.map_map]
  have hkeys (key : IdSet) : ((·.propertySet) ∘ ofGroup kind
      (Width.holding (records.map (·.weight))) propertyWeights records) key = key :=
    propertySet_ofGroup
  rw [List.map_congr_left fun key _ => hkeys key, List.map_id']
  exact nodup_eraseDups _

theorem mem_members_iff_of_mem_aggregate (hc : c ∈ aggregate kind propertyWeights records)
    {x : String} : x ∈ c.members ↔ ∃ r ∈ groupOf records c.propertySet, r.oid = x := by
  obtain ⟨r, -, rfl⟩ := mem_aggregate_iff.1 hc
  rw [mem_members_ofGroup, propertySet_ofGroup]
  simp [mem_groupOf, and_assoc]

theorem nodup_members_of_mem_aggregate (hc : c ∈ aggregate kind propertyWeights records) :
    c.members.Nodup := by
  obtain ⟨r, -, rfl⟩ := mem_aggregate_iff.1 hc
  exact IdSet.nodup_toList _

/-- A chunk has at least the record it got its property set from. -/
theorem exists_mem_groupOf (hc : c ∈ aggregate kind propertyWeights records) :
    ∃ r ∈ records, r.properties = c.propertySet := by
  obtain ⟨r, hr, rfl⟩ := mem_aggregate_iff.1 hc
  exact ⟨r, hr, propertySet_ofGroup.symm⟩

section Fits

variable (hc : c ∈ aggregate kind propertyWeights records)
variable (hfits : ((groupOf records c.propertySet).map (·.weight)).sum < 2 ^ 63)
include hc hfits

/-- Each member weighs what its records in the group do, unless the group weighs too much for a
word. -/
theorem memberWeights_of_mem_aggregate : c.memberWeights = c.members.map fun oid =>
    (((groupOf records c.propertySet).filter (·.oid = oid)).map (·.weight)).sum := by
  obtain ⟨r, -, rfl⟩ := mem_aggregate_iff.1 hc
  rw [propertySet_ofGroup] at hfits ⊢
  rw [memberWeights_ofGroup]
  refine List.map_congr_left fun oid _ => ?_
  exact Width.sum_of_lt (weightOf_nonneg _)
    ((weightOf_le_of_sublist List.filter_sublist).trans_lt hfits)

/-- The members of a chunk weigh together what its records weigh. -/
theorem sum_memberWeights :
    c.memberWeights.sum = ((groupOf records c.propertySet).map (·.weight)).sum := by
  rw [memberWeights_of_mem_aggregate hc hfits]
  refine sum_groups (nodup_members_of_mem_aggregate hc) fun r hr => ?_
  exact (mem_members_iff_of_mem_aggregate hc).2 ⟨r, hr, rfl⟩

theorem weight_eq_sum_memberWeights : c.weight = c.memberWeights.sum := by
  have hnonneg : 0 ≤ ((groupOf records c.propertySet).map (·.weight)).sum := weightOf_nonneg _
  have hweight : c.weight = (Width.holding (records.map (·.weight))).sum c.memberWeights := by
    obtain ⟨r, -, rfl⟩ := mem_aggregate_iff.1 hc
    rfl
  rw [← sum_memberWeights hc hfits] at hnonneg hfits
  rw [hweight, Width.sum_of_lt hnonneg hfits]

/-- A chunk weighs what its records weigh, unless that is too much for a word. -/
theorem weight_of_mem_aggregate :
    c.weight = ((groupOf records c.propertySet).map (·.weight)).sum :=
  (weight_eq_sum_memberWeights hc hfits).trans (sum_memberWeights hc hfits)

theorem one_le_weight : 1 ≤ c.weight := by
  obtain ⟨r, hr, hkey⟩ := exists_mem_groupOf hc
  rw [weight_of_mem_aggregate hc hfits]
  exact r.positive.trans (weight_le_weightOf (mem_groupOf.2 ⟨hr, hkey⟩))

end Fits

/-- Chunks of different property sets have no record in common. -/
theorem nodup_flatMap_groupOf (hoids : (records.map (·.oid)).Nodup) {cs : List Chunk}
    (hcs : (cs.map (·.propertySet)).Nodup) :
    (cs.flatMap fun k => groupOf records k.propertySet).Nodup := by
  refine List.nodup_flatMap.2 ⟨fun k _ => hoids.of_map.filter _, ?_⟩
  refine (List.pairwise_map.1 hcs).imp fun hne => ?_
  intro r hr hr'
  exact hne ((mem_groupOf.1 hr).2.symm.trans (mem_groupOf.1 hr').2)

/-- A sum over the chunks, each counted by its weight, is one over the records. -/
theorem sum_aggregate (kind : Kind) (propertyWeights : Ledger String ℤ) (f : IdSet → ℤ)
    (hfits : ∀ r ∈ records, ((groupOf records r.properties).map (·.weight)).sum < 2 ^ 63) :
    ((aggregate kind propertyWeights records).map fun c => f c.propertySet * c.weight).sum =
      (records.map fun r => f r.properties * r.weight).sum := by
  have hcovered : ∀ r ∈ records,
      r.properties ∈ (aggregate kind propertyWeights records).map (·.propertySet) := fun r hr =>
    List.mem_map.2 ⟨_, mem_aggregate_iff.2 ⟨r, hr, rfl⟩, propertySet_ofGroup⟩
  rw [← sum_groups (nodup_propertySet_aggregate kind propertyWeights records) hcovered,
    List.map_map]
  refine congrArg List.sum (List.map_congr_left fun c hc => ?_)
  obtain ⟨r, hr, hkey⟩ := exists_mem_groupOf hc
  have hgroup : (groupOf records c.propertySet).map (fun r => f r.properties * r.weight) =
      (groupOf records c.propertySet).map fun r => f c.propertySet * r.weight :=
    List.map_congr_left fun r hr => by rw [(mem_groupOf.1 hr).2]
  calc
    f c.propertySet * c.weight
      = f c.propertySet * ((groupOf records c.propertySet).map (·.weight)).sum := by
      rw [weight_of_mem_aggregate hc (hkey ▸ hfits r hr)]
    _ = ((groupOf records c.propertySet).map fun r => f r.properties * r.weight).sum := by
      rw [hgroup, List.sum_map_mul_left]

/-- All chunks weigh together what all records do. -/
theorem sum_weight_aggregate (kind : Kind) (propertyWeights : Ledger String ℤ)
    (hfits : ∀ r ∈ records, ((groupOf records r.properties).map (·.weight)).sum < 2 ^ 63) :
    ((aggregate kind propertyWeights records).map (·.weight)).sum = weightOf records := by
  simpa [weightOf] using sum_aggregate kind propertyWeights (fun _ => 1) hfits

/-- Chunks weigh together what their records weigh, unless one weighs too much for a word. -/
theorem sum_weight_of_forall_mem {cs : List Chunk}
    (hcs : ∀ k ∈ cs, k ∈ aggregate kind propertyWeights records)
    (hfits : ∀ k ∈ cs, ((groupOf records k.propertySet).map (·.weight)).sum < 2 ^ 63) :
    (cs.map (·.weight)).sum =
      ((cs.flatMap fun k => groupOf records k.propertySet).map (·.weight)).sum := by
  have hweights : cs.map (·.weight) =
      cs.map fun k => ((groupOf records k.propertySet).map (·.weight)).sum :=
    List.map_congr_left fun k hk => weight_of_mem_aggregate (hcs k hk) (hfits k hk)
  rw [hweights, List.map_flatMap, List.flatMap_def, List.sum_flatten, List.map_map]
  rfl

end Chunk

/-! ### Chunks of clusters -/

namespace Cluster

variable {mode : Mode} {chunks cs : List Chunk} {c : Cluster}

/-- A cluster is made of some chunks of a population. -/
structure Gathers (mode : Mode) (chunks : List Chunk) (c : Cluster) (cs : List Chunk) : Prop where
  mode_eq : c.mode = mode
  mem_chunks : ∀ k ∈ cs, k ∈ chunks
  /-- No chunk is taken twice. -/
  nodup : (cs.map (·.propertySet)).Nodup
  mem_members : ∀ x, x ∈ c.members ↔ ∃ k ∈ cs, x ∈ k.members
  mem_properties : ∀ x, x ∈ c.properties ↔ ∃ k ∈ cs, x ∈ k.properties
  membersCount_eq : c.statistics.membersCount = (cs.map (·.weight)).sum

theorem mem_foldl_addAll {ids : Chunk → List String} {start : IdSet} {x : String} :
    x ∈ cs.foldl (fun (all : IdSet) k => all.addAll (ids k)) start ↔
      x ∈ start ∨ ∃ k ∈ cs, x ∈ ids k := by
  induction cs generalizing start with
  | nil => simp
  | cons k cs ih =>
    rw [List.foldl_cons, ih, IdSet.mem_addAll]
    simp [or_assoc]

theorem mem_foldl_addAll_empty {ids : Chunk → List String} {x : String} :
    x ∈ cs.foldl (fun (all : IdSet) k => all.addAll (ids k)) .empty ↔ ∃ k ∈ cs, x ∈ ids k := by
  rw [mem_foldl_addAll]
  exact or_iff_right IdSet.not_mem_empty

theorem chunk_at_position {pos : ℕ} {k : Chunk} (h : (match chunks[pos]? with
    | some c => .ok c
    | none => .error .noSuchPosition : Except Failure Chunk) = .ok k) : chunks[pos]? = some k := by
  split at h
  next c hfound =>
    cases h
    exact hfound
  next => cases h

theorem mem_of_chunksAt {group : List ℕ} (h : chunksAt chunks group = .ok cs) :
    ∀ k ∈ cs, k ∈ chunks := by
  intro k hk
  obtain ⟨pos, -, hpos⟩ := (mem_of_mapM_eq_ok h).1 hk
  exact List.mem_of_getElem? (chunk_at_position hpos)

/-- Distinct positions have distinct chunks. -/
theorem nodup_of_chunksAt (hchunks : (chunks.map (·.propertySet)).Nodup) {group : List ℕ}
    (hgroup : group.Nodup) (h : chunksAt chunks group = .ok cs) :
    (cs.map (·.propertySet)).Nodup := by
  have hkeys : cs.map (fun k => some k.propertySet) =
      group.map fun pos => (chunks.map (·.propertySet))[pos]? := by
    refine map_eq_of_mapM_eq_ok (fun pos k hk => ?_) h
    rw [List.getElem?_map, chunk_at_position hk, Option.map_some]
  have hdistinct : (group.map fun pos => (chunks.map (·.propertySet))[pos]?).Nodup := by
    refine hgroup.map_on fun pos hpos pos' _ he => ?_
    obtain ⟨k, -, hk⟩ := exists_of_mem_of_mapM_eq_ok h hpos
    obtain ⟨hlt, -⟩ := List.getElem?_eq_some_iff.1 (chunk_at_position hk)
    exact (List.getElem?_inj (by simpa using hlt) hchunks).1 he
  rw [← hkeys, ← Function.comp_def some, ← List.map_map] at hdistinct
  exact hdistinct.of_map

theorem exists_gathers_of_assemble (hchunks : (chunks.map (·.propertySet)).Nodup)
    {similarities : Similarities} {groups : List (List ℕ)} {clusters : List Cluster}
    (h : assemble mode chunks similarities groups = .ok clusters) (hc : c ∈ clusters) :
    ∃ cs, Gathers mode chunks c cs := by
  obtain ⟨drafts, hdrafts, h⟩ := bind_eq_ok_iff.1 h
  cases h
  obtain ⟨⟨d, index⟩, hd, rfl⟩ := List.mem_map.1 hc
  have hdraft := List.mem_mergeSort.1 (List.fst_mem_of_mem_zipIdx hd)
  obtain ⟨group, -, hgroup⟩ := (mem_of_mapM_eq_ok hdrafts).1 hdraft
  obtain ⟨cs, hcs, hof⟩ := bind_eq_ok_iff.1 hgroup
  cases hof
  have htidy : (tidy group).Nodup :=
    (List.mergeSort_perm _ _).nodup_iff.2 (nodup_eraseDups group)
  exact ⟨cs, rfl, mem_of_chunksAt hcs, nodup_of_chunksAt hchunks htidy hcs,
    fun _ => mem_foldl_addAll_empty, fun _ => mem_foldl_addAll_empty, total_eq_sum _⟩

end Cluster

/-! ### The axis that is clustered -/

namespace Analysis

variable {records : List Record}

theorem nodup_oid_analysed {mode : Mode}
    (hoids : mode = .user → (records.map (·.oid)).Nodup) :
    ((analysed mode records).map (·.oid)).Nodup := by
  cases mode with
  | user => exact hoids rfl
  | role => exact nodup_oid_invert records

theorem exists_chunksFor_eq (mode : Mode) (records : List Record) : ∃ kind,
    Clustering.chunksFor mode records =
      Chunk.aggregate kind .empty (analysed mode records) := by
  cases mode with
  | user => exact ⟨.users, rfl⟩
  | role => exact ⟨.roles, rfl⟩

end Analysis

end RoleMining
