import Mathlib.Data.List.Permutation
import RoleMining.Analysis.Basic
import RoleMining.Proofs.Cluster.Division
import RoleMining.Proofs.Cluster.Overlaps

/-!
# Clustering accounts for everybody

Without overlap the groups of a clustering take every chunk at most once, and chunks of records with
distinct identities have no member in common. So every identity is in one cluster or in none, and a
chunk is in a cluster with all of its members or with none. What the clusters count and what the
other chunks weigh adds up to what the records weigh, as long as no chunk weighs more than a machine
word holds.
-/
namespace RoleMining

/-- No member of one chunk is a member of another. -/
def Chunk.Separate (chunks : List Chunk) : Prop :=
  ∀ k ∈ chunks, ∀ k' ∈ chunks, ∀ x, x ∈ k.members → x ∈ k'.members → k = k'

theorem Chunk.separate_aggregate {kind : Kind} {propertyWeights : Ledger String ℤ}
    {records : List Record} (hoids : (records.map (·.oid)).Nodup) :
    Separate (aggregate kind propertyWeights records) := by
  intro k hk k' hk' x hx hx'
  obtain ⟨r, hr, rfl⟩ := (mem_members_iff_of_mem_aggregate hk).1 hx
  obtain ⟨r', hr', hoid⟩ := (mem_members_iff_of_mem_aggregate hk').1 hx'
  obtain rfl := Record.eq_of_oid_eq hoids (mem_groupOf.1 hr').1 (mem_groupOf.1 hr).1 hoid
  have hkeys : k.propertySet = k'.propertySet :=
    (mem_groupOf.1 hr).2.symm.trans (mem_groupOf.1 hr').2
  exact List.inj_on_of_nodup_map (nodup_propertySet_aggregate kind propertyWeights records) hk hk'
    hkeys

namespace Cluster

variable {mode : Mode} {chunks : List Chunk} {groups : List (List ℕ)} {clusters : List Cluster}
variable {group group' : List ℕ} {c d : Cluster} {k : Chunk}

theorem OfGroup.disjoint (hc : OfGroup mode chunks group c) (hd : OfGroup mode chunks group' d)
    (hseparate : Chunk.Separate chunks) (hchunks : (chunks.map (·.propertySet)).Nodup)
    (hgroups : group.Disjoint group') : ∀ x ∈ c.members, x ∉ d.members := by
  intro x hx hx'
  obtain ⟨k, hk, hxk⟩ := (hc.mem_members x).1 hx
  obtain ⟨k', hk', hxk'⟩ := (hd.mem_members x).1 hx'
  obtain rfl := hseparate k (mem_of_mem_picked hk) k' (mem_of_mem_picked hk') x hxk hxk'
  obtain ⟨pos, hpos, hat⟩ := mem_picked_iff.1 hk
  obtain ⟨pos', hpos', hat'⟩ := mem_picked_iff.1 hk'
  obtain rfl : pos = pos' :=
    (List.getElem?_inj (hc.lt pos hpos) hchunks.of_map).1 (hat.trans hat'.symm)
  exact hgroups hpos hpos'

section Assembled

variable (h : Assembled mode chunks groups clusters)
variable (hchunks : (chunks.map (·.propertySet)).Nodup)
include h

section Disjoint

variable (hseparate : Chunk.Separate chunks) (hgroups : groups.flatten.Nodup)
include hchunks hseparate hgroups

/-- Clusters of groups that have no position in common have no member in common. -/
theorem Assembled.pairwise_members :
    clusters.Pairwise fun c d => ∀ x ∈ c.members, x ∉ d.members := by
  have hmembers := h.map_perm (·.members)
    (fun group => (picked chunks group).foldl (fun ids k => ids.addAll k.members) .empty)
    fun group _ c hc => IdSet.ext_mem fun x => (hc.mem_members x).trans
      mem_foldl_addAll_empty.symm
  have hsymm {ids ids' : IdSet} (hdisjoint : ∀ x ∈ ids, x ∉ ids') : ∀ x ∈ ids', x ∉ ids :=
    fun x hx hx' => hdisjoint x hx' hx
  suffices hpairwise : (clusters.map (·.members)).Pairwise fun ids ids' => ∀ x ∈ ids, x ∉ ids' from
    List.pairwise_map.1 hpairwise
  rw [hmembers.pairwise_iff hsymm, List.pairwise_map]
  refine (List.nodup_flatten.1 hgroups).2.imp_of_mem fun {group group'} hg hg' hdisjoint => ?_
  obtain ⟨c, -, hc⟩ := h.exists_cluster hg
  obtain ⟨d, -, hd⟩ := h.exists_cluster hg'
  simp only [mem_foldl_addAll_empty, ← hc.mem_members, ← hd.mem_members]
  exact hc.disjoint hd hseparate hchunks hdisjoint

/-- A cluster that has a member is the only one. -/
theorem Assembled.eq_of_mem_members (hc : c ∈ clusters) (hd : d ∈ clusters) {x : String}
    (hx : x ∈ c.members) (hx' : x ∈ d.members) : c = d := by
  by_contra hne
  have hsymm : Std.Symm fun c d : Cluster => ∀ x ∈ c.members, x ∉ d.members :=
    ⟨fun c d hdisjoint x hx hx' => hdisjoint x hx' hx⟩
  exact (h.pairwise_members hchunks hseparate hgroups).forall hc hd hne x hx hx'

end Disjoint

include hchunks

/-- A chunk is in the clusters that its members are in. -/
theorem Assembled.mem_chunkKeys_iff (hseparate : Chunk.Separate chunks) (hk : k ∈ chunks)
    {x : String} (hx : x ∈ k.members) (hc : c ∈ clusters) :
    k.properties ∈ c.chunkKeys ↔ x ∈ c.members := by
  obtain ⟨group, -, hof⟩ := h.exists_group hc
  rw [hof.mem_chunkKeys, hof.mem_members]
  constructor
  · intro hkey
    obtain ⟨k', hk', he⟩ := hkey
    obtain rfl : k' = k :=
      List.inj_on_of_nodup_map hchunks (mem_of_mem_picked hk') hk (congrArg IdSet.ofList he)
    exact ⟨k', hk', hx⟩
  · intro hmember
    obtain ⟨k', hk', hx'⟩ := hmember
    obtain rfl := hseparate k' (mem_of_mem_picked hk') k hk x hx' hx
    exact ⟨k', hk', rfl⟩

/-- The chunks in clusters are told by their keys. -/
theorem Assembled.mem_keys_iff (hk : k ∈ chunks) :
    k.properties ∈ clusters.flatMap (·.chunkKeys) ↔ k ∈ picked chunks groups.flatten := by
  have hkey {k' : Chunk} (hk' : k' ∈ chunks) (he : k'.properties = k.properties) : k' = k :=
    List.inj_on_of_nodup_map hchunks hk' hk (congrArg IdSet.ofList he)
  simp only [List.mem_flatMap, picked_flatten]
  constructor
  · intro hmem
    obtain ⟨c, hc, hkeys⟩ := hmem
    obtain ⟨group, hgroup, hof⟩ := h.exists_group hc
    obtain ⟨k', hk', he⟩ := (hof.mem_chunkKeys _).1 hkeys
    obtain rfl := hkey (mem_of_mem_picked hk') he
    exact ⟨group, hgroup, hk'⟩
  · intro hmem
    obtain ⟨group, hgroup, hk'⟩ := hmem
    obtain ⟨c, hc, hof⟩ := h.exists_cluster hgroup
    exact ⟨c, hc, (hof.mem_chunkKeys _).2 ⟨k, hk', rfl⟩⟩

variable (hgroups : groups.flatten.Nodup)
include hgroups

/-- What the clusters count and what the other chunks weigh is what all chunks weigh. -/
theorem Assembled.sum_membersCount (hlt : ∀ pos ∈ groups.flatten, pos < chunks.length) :
    (clusters.map (·.statistics.membersCount)).sum +
      ((chunks.filter (·.properties ∉ clusters.flatMap (·.chunkKeys))).map (·.weight)).sum =
      (chunks.map (·.weight)).sum := by
  have hcount : (clusters.map (·.statistics.membersCount)).sum =
      ((picked chunks groups.flatten).map (·.weight)).sum := by
    have hcounts := h.map_perm (·.statistics.membersCount)
      (fun group => ((picked chunks group).map (·.weight)).sum)
      fun group hgroup c hc => hc.membersCount_eq ((List.nodup_flatten.1 hgroups).1 group hgroup)
    rw [hcounts.sum_eq, picked_flatten, List.map_flatMap, List.flatMap_def, List.sum_flatten,
      List.map_map]
    rfl
  have hincluded : (chunks.filter (·.properties ∈ clusters.flatMap (·.chunkKeys))).Perm
      (picked chunks groups.flatten) := by
    refine (List.perm_ext_iff_of_nodup (hchunks.of_map.filter _)
      (nodup_picked hchunks hlt hgroups).of_map).2 fun k => ?_
    rw [List.mem_filter, decide_eq_true_eq]
    refine ⟨fun hk => (h.mem_keys_iff hchunks hk.1).1 hk.2, fun hk => ?_⟩
    have hmem := mem_of_mem_picked hk
    exact ⟨hmem, (h.mem_keys_iff hchunks hmem).2 hk⟩
  have hsplit := List.filter_append_perm
    (fun k : Chunk => decide (k.properties ∈ clusters.flatMap (·.chunkKeys))) chunks
  rw [hcount, ← (hincluded.map _).sum_eq, ← List.sum_append, ← List.map_append]
  simp only [decide_not]
  exact (hsplit.map _).sum_eq

end Assembled

end Cluster

/-! ### What a clustering says of its chunks -/

namespace Chunk

variable {kind : Kind} {propertyWeights : Ledger String ℤ} {records : List Record}
variable {included outliers : List (List String)} {chunks : List Chunk} {k : Chunk}

theorem mem_classify_iff : k ∈ classify included outliers chunks ↔
    ∃ k' ∈ chunks, { k' with status := statusIn included outliers k' } = k := List.mem_map

theorem statusIn_eq_included : statusIn included outliers k = .included ↔
    k.properties ∈ included := by
  unfold statusIn
  split_ifs with hincluded <;> simp [hincluded]

theorem statusIn_eq_outlier (h : k.properties ∉ included) :
    statusIn included outliers k = .outlier ↔ k.properties ∈ outliers := by
  unfold statusIn
  rw [if_neg h]
  split_ifs with houtlier <;> simp [houtlier]

theorem statusIn_eq_noise (h : k.properties ∉ included) :
    statusIn included outliers k = .noise ↔ k.properties ∉ outliers := by
  unfold statusIn
  rw [if_neg h]
  split_ifs with houtlier <;> simp [houtlier]

/-- Classified chunks differ from what they were in their status alone. -/
theorem classify_aggregate : (classify included outliers
    (aggregate kind propertyWeights records)).map ({ · with status := .unclassified }) =
      aggregate kind propertyWeights records := by
  rw [classify, List.map_map]
  refine (List.map_congr_left fun k hk => ?_).trans (List.map_id _)
  obtain ⟨r, -, rfl⟩ := mem_aggregate_iff.1 hk
  rfl

theorem sum_weight_classify : (((classify included outliers chunks).filter
    (·.status ≠ .included)).map (·.weight)).sum =
      ((chunks.filter (·.properties ∉ included)).map (·.weight)).sum := by
  have hstatus (k : Chunk) : decide (statusIn included outliers k ≠ .included) =
      decide (k.properties ∉ included) := by
    simp only [ne_eq, statusIn_eq_included]
  rw [classify, List.filter_map, List.map_map]
  exact congrArg (fun kept => (List.map (·.weight) kept).sum)
    (List.filter_congr fun k _ => hstatus k)

end Chunk

namespace Partition

variable {policy : Policy} {chunks : List Chunk} {k : Chunk}

/-- A chunk lies alone when communities are looked for and no other chunk is similar to it. -/
def IsAlone (policy : Policy) (chunks : List Chunk) (k : Chunk) : Prop :=
  policy.strategy = .communities ∧ ∀ k' ∈ chunks, k'.properties ≠ k.properties →
    ¬ Graph.Similar policy.minSimilarity policy.minShared k.propertySet k'.propertySet

/-- Whether a chunk lies alone is not a matter of any status. -/
theorem isAlone_classify_iff {included outliers : List (List String)} {status : Chunk.Status} :
    IsAlone policy (Chunk.classify included outliers chunks) { k with status } ↔
      IsAlone policy chunks k := by
  simp only [IsAlone, Chunk.classify, List.forall_mem_map]
  rfl

theorem mem_outliers_ofGraph {finder : CommunityFinder} {g : Graph} {made : Partition}
    (h : ofGraph finder policy chunks g = .ok made) {key : List String} : key ∈ made.outliers ↔
      ∃ (pos : ℕ) (k : Chunk), chunks[pos]? = some k ∧ g.hasEdgeAt pos = false ∧
        k.properties = key := by
  have houtliers : made.outliers = chunks.zipIdx.filterMap fun x =>
      if g.hasEdgeAt x.2 then none else some x.1.properties := by
    unfold ofGraph at h
    dsimp only at h
    split at h
    next =>
      cases h
      rfl
    next =>
      obtain ⟨-, -, h⟩ := bind_eq_ok_iff.1 h
      cases h
      rfl
  rw [houtliers]
  simp only [List.mem_filterMap, Prod.exists, List.mem_zipIdx_iff_getElem?]
  rw [exists_comm]
  simp

section Chunks

variable (hmembers : ∀ k ∈ chunks, k.members ≠ [])
variable (hchunks : (chunks.map (·.propertySet)).Nodup)
include hmembers hchunks

/-- The outliers of a partition are the keys of the chunks that lie alone. -/
theorem mem_outliers_iff {finder : CommunityFinder} {made : Partition}
    (h : Clustering.partitionOf finder policy chunks = .ok made) (hk : k ∈ chunks) :
    k.properties ∈ made.outliers ↔ IsAlone policy chunks k := by
  have hkey {k' : Chunk} (hk' : k' ∈ chunks) (he : k'.properties = k.properties) : k' = k :=
    List.inj_on_of_nodup_map hchunks hk' hk (congrArg IdSet.ofList he)
  unfold Clustering.partitionOf at h
  cases hstrategy : policy.strategy with
  | exact =>
    rw [hstrategy] at h
    cases h
    simp [IsAlone, hstrategy]
  | communities =>
    rw [hstrategy] at h
    obtain ⟨g, hg, h⟩ := bind_eq_ok_iff.1 h
    rw [mem_outliers_ofGraph h, IsAlone, and_iff_right hstrategy, graphOf_eq hmembers hg]
    have hedge {pos : ℕ} (hpos : chunks[pos]? = some k) : (Graph.ofSets policy.minSimilarity
        policy.minShared (chunks.map (·.propertySet))).hasEdgeAt pos = true ↔
          ∃ k' ∈ chunks, k'.properties ≠ k.properties ∧
            Graph.Similar policy.minSimilarity policy.minShared k.propertySet k'.propertySet := by
      have hset : (chunks.map (·.propertySet))[pos]? = some k.propertySet := by simp [hpos]
      rw [Graph.hasEdgeAt_ofSets_iff hset]
      simp only [List.getElem?_map, Option.map_eq_some_iff]
      constructor
      · intro hlink
        obtain ⟨other, -, ⟨k', hother, rfl⟩, hne, hsimilar⟩ := hlink
        refine ⟨k', List.mem_of_getElem? hother, fun he => hne ?_, hsimilar⟩
        obtain rfl := hkey (List.mem_of_getElem? hother) he
        exact (List.getElem?_inj (List.getElem?_eq_some_iff.1 hother).1 hchunks.of_map).1
          (hother.trans hpos.symm)
      · intro hlink
        obtain ⟨k', hk', hne, hsimilar⟩ := hlink
        obtain ⟨other, hother⟩ := List.getElem?_of_mem hk'
        refine ⟨other, _, ⟨k', hother, rfl⟩, fun he => hne ?_, hsimilar⟩
        rw [he, hpos] at hother
        rw [Option.some_inj.1 hother]
    constructor
    · intro halone
      obtain ⟨pos, k', hpos, hnone, he⟩ := halone
      obtain rfl := hkey (List.mem_of_getElem? hpos) he
      intro other hother hne hsimilar
      rw [(hedge hpos).2 ⟨other, hother, hne, hsimilar⟩] at hnone
      cases hnone
    · intro halone
      obtain ⟨pos, hpos⟩ := List.getElem?_of_mem hk
      refine ⟨pos, k, hpos, Bool.eq_false_iff.2 fun hlink => ?_, rfl⟩
      obtain ⟨other, hother, hne, hsimilar⟩ := (hedge hpos).1 hlink
      exact halone other hother hne hsimilar

end Chunks

end Partition

/-! ### The account -/

namespace Clustering

variable {policy : Policy} {records : List Record} {chunks : List Chunk}
variable {clusters : List Cluster} {partition : Option Partition} {aborted : Bool} {x : String}

theorem mem_unassigned_conclude :
    x ∈ (conclude chunks clusters partition aborted).unassigned ↔
      (∃ k ∈ chunks, x ∈ k.members) ∧ ∀ c ∈ clusters, x ∉ c.members := by
  simp [conclude, Cluster.mem_foldl_addAll_empty, IdSet.mem_foldl_union_empty]

/-- What a clustering without overlap says of records. -/
structure Accounts (policy : Policy) (records : List Record) (clustering : Clustering) : Prop where
  /-- Nobody is in two clusters. -/
  disjoint : clustering.clusters.Pairwise fun c d => ∀ x ∈ c.members, x ∉ d.members
  /-- Nobody who is unassigned is in a cluster. -/
  unassigned : ∀ x ∈ clustering.unassigned, ∀ c ∈ clustering.clusters, x ∉ c.members
  /-- Nobody else than those who have records is in a cluster or unassigned. -/
  everyone : ∀ x, (x ∈ clustering.unassigned ∨ ∃ c ∈ clustering.clusters, x ∈ c.members) ↔
    ∃ r ∈ records, r.oid = x
  included : ∀ k ∈ clustering.chunks, k.status = .included ↔
    ∃ c ∈ clustering.clusters, k.properties ∈ c.chunkKeys
  /-- A chunk is in a cluster with all of its members, and they are in no other. -/
  together : ∀ k ∈ clustering.chunks, ∀ c ∈ clustering.clusters, k.properties ∈ c.chunkKeys →
    ∀ x ∈ k.members, ∀ d ∈ clustering.clusters, x ∈ d.members ↔ d = c
  /-- The members of a chunk that is in no cluster are unassigned. -/
  apart : ∀ k ∈ clustering.chunks, k.status ≠ .included → ∀ x ∈ k.members,
    x ∈ clustering.unassigned
  outlier : ∀ k ∈ clustering.chunks, k.status ≠ .included →
    (k.status = .outlier ↔ Partition.IsAlone policy clustering.chunks k)
  noise : ∀ k ∈ clustering.chunks, k.status ≠ .included →
    (k.status = .noise ↔ ¬ Partition.IsAlone policy clustering.chunks k)
  /-- The counts of the clusters and the weights of the other chunks add up to all weights. -/
  counted : (∀ r ∈ records, ((Chunk.groupOf records r.properties).map (·.weight)).sum < 2 ^ 63) →
    (clustering.clusters.map (·.statistics.membersCount)).sum +
      ((clustering.chunks.filter (·.status ≠ .included)).map (·.weight)).sum =
      (records.map (·.weight)).sum

section Account

variable {kind : Chunk.Kind} {mode : Mode} {groups : List (List ℕ)}
variable (hoids : (records.map (·.oid)).Nodup)
variable (hchunks : Chunk.aggregate kind .empty records = chunks)
include hchunks

theorem nodup_propertySet_of_aggregate : (chunks.map (·.propertySet)).Nodup :=
  hchunks ▸ Chunk.nodup_propertySet_aggregate kind .empty records

theorem exists_mem_members_iff : (∃ k ∈ chunks, x ∈ k.members) ↔ ∃ r ∈ records, r.oid = x := by
  subst hchunks
  constructor
  · intro hmember
    obtain ⟨k, hk, hx⟩ := hmember
    obtain ⟨r, hr, hoid⟩ := (Chunk.mem_members_iff_of_mem_aggregate hk).1 hx
    exact ⟨r, (Chunk.mem_groupOf.1 hr).1, hoid⟩
  · intro hrecord
    obtain ⟨r, hr, rfl⟩ := hrecord
    exact ⟨_, Chunk.mem_aggregate_iff.2 ⟨r, hr, rfl⟩, Chunk.mem_members_ofGroup.2 ⟨r, hr, rfl, rfl⟩⟩

/-- All chunks weigh together what the records weigh. -/
theorem sum_weight_chunks
    (hfits : ∀ r ∈ records, ((Chunk.groupOf records r.properties).map (·.weight)).sum < 2 ^ 63) :
    (chunks.map (·.weight)).sum = (records.map (·.weight)).sum := by
  subst hchunks
  exact Chunk.sum_weight_aggregate kind .empty hfits

include hoids

/-- Clusters of some groups of chunks account for all records. -/
theorem accounts_conclude (hassembled : Cluster.Assembled mode chunks groups clusters)
    (hgroups : groups.flatten.Nodup) (hlt : ∀ pos ∈ groups.flatten, pos < chunks.length)
    (houtliers : ∀ k ∈ chunks, k.properties ∈ (partition.map Partition.outliers).getD [] ↔
      Partition.IsAlone policy chunks k) :
    Accounts policy records (conclude chunks clusters partition aborted) := by
  have hkeys := nodup_propertySet_of_aggregate hchunks
  have hseparate : Chunk.Separate chunks := hchunks ▸ Chunk.separate_aggregate hoids
  refine {
    disjoint := hassembled.pairwise_members hkeys hseparate hgroups
    unassigned := fun x hx => (mem_unassigned_conclude.1 hx).2
    everyone := ?everyone
    included := ?included
    together := ?together
    apart := ?apart
    outlier := ?outlier
    noise := ?noise
    counted := ?counted }
  case everyone =>
    intro x
    rw [mem_unassigned_conclude, ← exists_mem_members_iff hchunks]
    constructor
    · rintro (hx | ⟨c, hc, hx⟩)
      · exact hx.1
      · obtain ⟨group, -, hof⟩ := hassembled.exists_group hc
        obtain ⟨k, hk, hxk⟩ := (hof.mem_members x).1 hx
        exact ⟨k, Cluster.mem_of_mem_picked hk, hxk⟩
    · intro hx
      by_cases hassigned : ∃ c ∈ clusters, x ∈ c.members
      · exact .inr hassigned
      · exact .inl ⟨hx, fun c hc hxc => hassigned ⟨c, hc, hxc⟩⟩
  case included =>
    intro classified hclassified
    obtain ⟨k, -, rfl⟩ := Chunk.mem_classify_iff.1 hclassified
    exact Chunk.statusIn_eq_included.trans List.mem_flatMap
  case together =>
    intro classified hclassified c hc hkey x hx d hd
    obtain ⟨k, hk, rfl⟩ := Chunk.mem_classify_iff.1 hclassified
    have hxc := (hassembled.mem_chunkKeys_iff hkeys hseparate hk hx hc).1 hkey
    refine ⟨fun hxd => hassembled.eq_of_mem_members hkeys hseparate hgroups hd hc hxd hxc, ?_⟩
    rintro rfl
    exact hxc
  case apart =>
    intro classified hclassified hstatus x hx
    obtain ⟨k, hk, rfl⟩ := Chunk.mem_classify_iff.1 hclassified
    refine mem_unassigned_conclude.2 ⟨⟨k, hk, hx⟩, fun c hc hxc => hstatus ?_⟩
    have hkey := (hassembled.mem_chunkKeys_iff hkeys hseparate hk hx hc).2 hxc
    exact Chunk.statusIn_eq_included.2 (List.mem_flatMap.2 ⟨c, hc, hkey⟩)
  case outlier =>
    intro classified hclassified hstatus
    obtain ⟨k, hk, rfl⟩ := Chunk.mem_classify_iff.1 hclassified
    have hkey := mt Chunk.statusIn_eq_included.2 hstatus
    exact (Chunk.statusIn_eq_outlier hkey).trans
      ((houtliers k hk).trans Partition.isAlone_classify_iff.symm)
  case noise =>
    intro classified hclassified hstatus
    obtain ⟨k, hk, rfl⟩ := Chunk.mem_classify_iff.1 hclassified
    have hkey := mt Chunk.statusIn_eq_included.2 hstatus
    exact (Chunk.statusIn_eq_noise hkey).trans
      (not_congr ((houtliers k hk).trans Partition.isAlone_classify_iff.symm))
  case counted =>
    intro hfits
    rw [← sum_weight_chunks hchunks hfits, ← hassembled.sum_membersCount hkeys hgroups hlt]
    exact congrArg _ Chunk.sum_weight_classify

end Account

/-- A clustering without overlap that was not stopped accounts for everybody exactly once, whatever
the way to find communities. Its chunks are those of the population. Weights add up as long as no
chunk weighs more than a machine word holds. -/
theorem clustering_accounts_for_everybody {α : Type} (finder : CommunityFinder) {policy : Policy}
    (hoverlap : policy.allowOverlap = false) {records : List Record}
    (hoids : policy.mode = .user → (records.map (·.oid)).Nodup) {run after : Run α}
    {clustering : Clustering}
    (h : ofPopulation finder policy records run = .ok (after, clustering))
    (hcomplete : clustering.aborted = false) :
    clustering.chunks.map ({ · with status := .unclassified }) =
        chunksFor policy.mode records ∧
      Accounts policy (Analysis.analysed policy.mode records) clustering := by
  have hoids' := Analysis.nodup_oid_analysed hoids
  obtain ⟨kind, hchunks⟩ := Analysis.exists_chunksFor_eq policy.mode records
  rcases made_ofPopulation finder policy records run after clustering h with
    ⟨-, hnone⟩ | ⟨made, large, joined, clusters, hsteps, hmade⟩
  · obtain ⟨hempty, rfl⟩ := hnone hcomplete
    rw [hempty] at hchunks ⊢
    have hassembled : Cluster.Assembled policy.mode [] [] [] := ⟨[], .refl [], .nil⟩
    exact ⟨rfl, accounts_conclude hoids' hchunks.symm hassembled List.nodup_nil (by simp) (by simp)⟩
  · rw [hmade]
    have hjoined : joined = large := by
      have hjoined := hsteps.joined_eq
      unfold joinedGroups at hjoined
      rw [hoverlap] at hjoined
      exact (Except.ok.inj hjoined).symm
    subst hjoined
    have hmembers : ∀ k ∈ chunksFor policy.mode records, k.members ≠ [] := by
      rw [hchunks]
      exact fun _ => Chunk.members_ne_nil
    have hkeys := nodup_propertySet_of_aggregate hchunks.symm
    refine ⟨?_, accounts_conclude hoids' hchunks.symm hsteps.assembled hsteps.nodup_large ?_ ?_⟩
    · rw [hchunks]
      exact Chunk.classify_aggregate
    · intro pos hpos
      obtain ⟨group, hgroup, hmem⟩ := List.mem_flatten.1 hpos
      exact hsteps.lt_large hgroup pos hmem
    · exact fun k hk => Partition.mem_outliers_iff hmembers hkeys hsteps.made_eq hk

/-- Communities of users with at least two members. -/
def twoOrMore : Policy where
  mode := .user
  strategy := .communities
  minSimilarity := .float 0.6
  minShared := 2
  resolution := .float 0.3
  seed := .int 42
  minMembers := 2
  minProperties := 2
  allowOverlap := false
  minCoverage := .float 0.8
  maxClusters := 3

/-- Ann and Bob hold the same roles, Dan holds another one. -/
def threeUsers : List Record :=
  [.single "dan" (.ofList ["art"]), .single "ann" (.ofList ["dev", "ops"]),
    .single "bob" (.ofList ["dev", "ops"])]

/-- What a test reads off a clustering: the members of clusters, and the status of each chunk. -/
def outline {α : Type} (x : Run α × Clustering) :
    Bool × List (List String) × List (List String × Chunk.Status) :=
  (x.2.aborted, x.2.clusters.map (·.members.toList),
    x.2.chunks.map fun k => (k.members, k.status))

theorem dan_is_an_outlier : ∃ (after : Run Unit) (clustering : Clustering),
    twoOrMore.allowOverlap = false ∧ (threeUsers.map (·.oid)).Nodup ∧
    ofPopulation Community.best twoOrMore threeUsers Run.unwatched = .ok (after, clustering) ∧
    clustering.aborted = false ∧
    clustering.clusters.map (·.members.toList) = [["ann", "bob"]] ∧
    clustering.chunks.map (fun k => (k.members, k.status)) =
      [(["ann", "bob"], .included), (["dan"], .outlier)] ∧
    Accounts twoOrMore threeUsers clustering := by
  have hoids : (threeUsers.map (·.oid)).Nodup := by decide
  have hchunks : chunksFor .user threeUsers =
      [{ kind := .users, members := ["ann", "bob"], properties := ["dev", "ops"], weight := 2,
         memberWeights := [1, 1] },
        { kind := .users, members := ["dan"], properties := ["art"], weight := 1,
          memberWeights := [1] }] := by
    cbv
  have houtline : ((ofPopulation Community.best twoOrMore threeUsers
      (Run.unwatched : Run Unit)).toOption.map outline) =
        some (false, [["ann", "bob"]], [(["ann", "bob"], .included), (["dan"], .outlier)]) := by
    unfold ofPopulation
    rw [show twoOrMore.mode = .user from rfl, hchunks]
    decide +kernel
  obtain ⟨⟨after, clustering⟩, h, hread⟩ := exists_ok_of_toOption_map houtline
  simp only [outline, Prod.mk.injEq] at hread
  obtain ⟨hcomplete, hclusters, hstatus⟩ := hread
  exact ⟨after, clustering, rfl, hoids, h, hcomplete, hclusters, hstatus,
    (clustering_accounts_for_everybody Community.best rfl (fun _ => hoids) h hcomplete).2⟩

end Clustering

/-- Three users with the same roles weigh together five more than there are machine words. -/
def Analysis.heavyUsers : List Record :=
  [⟨"ann", .ofList ["dev", "ops"], 2 ^ 63 - 1, by decide⟩,
    ⟨"bob", .ofList ["dev", "ops"], 2 ^ 63 - 1, by decide⟩,
    ⟨"cid", .ofList ["dev", "ops"], 7, by decide⟩]

/-- The members of a chunk that is too heavy for a machine word are not all counted. -/
theorem Clustering.heavy_users_are_not_all_counted :
    Clustering.twoOrMore.allowOverlap = false ∧ (Analysis.heavyUsers.map (·.oid)).Nodup ∧
    ((ofPopulation Community.best { twoOrMore with strategy := .exact } Analysis.heavyUsers
      (Run.unwatched : Run Unit)).toOption.map fun x =>
        (x.2.aborted, x.2.clusters.map (·.statistics.membersCount),
          (x.2.chunks.filter (·.status ≠ .included)).map (·.weight))) = some (false, [5], []) ∧
    (Analysis.heavyUsers.map (·.weight)).sum = 2 ^ 64 + 5 := by
  decide +kernel

end RoleMining
