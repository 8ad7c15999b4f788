import Mathlib.Data.List.Perm.Basic
import RoleMining.Proofs.Cluster.Gathering
import RoleMining.Proofs.Cluster.Links
import RoleMining.Proofs.Cluster.Stages

/-!
# From chunks to clusters

A clustering that was not stopped takes four steps: the chunks are divided into groups, small groups
are dropped, chunks join further groups, and every group becomes a cluster. A division takes every
position once; the steps after it only drop groups, or add positions to them, and each cluster is
made of the chunks at the positions of its group.
-/
namespace RoleMining

/-! ### Groups of positions -/

/-- The groups take every position below `n` exactly once. -/
def Divides (groups : List (List ℕ)) (n : ℕ) : Prop := groups.flatten.Perm (List.range n)

theorem divides_singletons (n : ℕ) : Divides ((List.range n).map fun pos => [pos]) n := by
  unfold Divides
  rw [← List.flatMap_def, List.flatMap_singleton']

/-- Every node has one label, so communities take every node once. -/
theorem divides_communities (n : ℕ) (l : Labelling) : Divides (Community.groups n l) n := by
  unfold Divides Community.groups
  rw [← List.flatMap_def, List.perm_ext_iff_of_nodup ?_ List.nodup_range]
  · intro pos
    simp only [List.mem_flatMap, List.mem_mergeSort, List.mem_eraseDups, List.mem_map,
      List.mem_filter, beq_iff_eq]
    constructor
    · rintro ⟨-, -, hpos, -⟩
      exact hpos
    · intro hpos
      exact ⟨l.label pos, ⟨pos, hpos, rfl⟩, hpos, rfl⟩
  · have hlabels : (((List.range n).map l.label).eraseDups.mergeSort).Nodup :=
      (List.mergeSort_perm _ _).nodup_iff.2 (nodup_eraseDups _)
    refine List.nodup_flatMap.2 ⟨fun _ _ => List.nodup_range.filter _, hlabels.imp ?_⟩
    intro a b hne pos ha hb
    simp only [List.mem_filter, beq_iff_eq] at ha hb
    exact hne (ha.2.symm.trans hb.2)

namespace Divides

variable {groups : List (List ℕ)} {n : ℕ}

theorem nodup (h : Divides groups n) : groups.flatten.Nodup :=
  (List.Perm.nodup_iff h).2 List.nodup_range

theorem lt (h : Divides groups n) {group : List ℕ} (hgroup : group ∈ groups) :
    ∀ pos ∈ group, pos < n := fun _ hpos =>
  List.mem_range.1 ((List.Perm.mem_iff h).1 (List.mem_flatten.2 ⟨group, hgroup, hpos⟩))

end Divides

namespace Cluster

variable {chunks cs : List Chunk} {group : List ℕ} {mode : Mode} {c d : Cluster} {k : Chunk}

/-- The chunks at the positions of a group. -/
def picked (chunks : List Chunk) (group : List ℕ) : List Chunk :=
  group.filterMap fun pos => chunks[pos]?

theorem chunksAt_eq_ok_iff : chunksAt chunks group = .ok cs ↔
    (∀ pos ∈ group, pos < chunks.length) ∧ cs = picked chunks group := by
  unfold chunksAt picked
  rw [mapM_eq_ok_iff]
  induction group generalizing cs with
  | nil => simp
  | cons pos group ih =>
    rw [List.forall₂_cons_left_iff]
    constructor
    · rintro ⟨k, cs', hk, hcs, rfl⟩
      have hfound := chunk_at_position hk
      obtain ⟨hlt, rfl⟩ := ih.1 hcs
      refine ⟨List.forall_mem_cons.2 ⟨?_, hlt⟩, ?_⟩
      · exact (List.getElem?_eq_some_iff.1 hfound).1
      · rw [List.filterMap_cons_some hfound]
    · rintro ⟨hlt, rfl⟩
      obtain ⟨hpos, hrest⟩ := List.forall_mem_cons.1 hlt
      have hfound := List.getElem?_eq_getElem hpos
      rw [List.filterMap_cons_some hfound]
      exact ⟨_, _, by simp [hfound], ih.2 ⟨hrest, rfl⟩, rfl⟩

theorem mem_picked_iff : k ∈ picked chunks group ↔ ∃ pos ∈ group, chunks[pos]? = some k :=
  List.mem_filterMap

theorem mem_of_mem_picked (h : k ∈ picked chunks group) : k ∈ chunks := by
  obtain ⟨pos, -, hpos⟩ := mem_picked_iff.1 h
  exact List.mem_of_getElem? hpos

theorem picked_perm {group' : List ℕ} (h : group.Perm group') :
    (picked chunks group).Perm (picked chunks group') := h.filterMap _

theorem picked_flatten (groups : List (List ℕ)) :
    picked chunks groups.flatten = groups.flatMap (picked chunks) := by
  rw [picked, List.filterMap_flatten, List.flatMap_def]
  rfl

theorem nodup_picked (hchunks : (chunks.map (·.propertySet)).Nodup)
    (hlt : ∀ pos ∈ group, pos < chunks.length) (hgroup : group.Nodup) :
    ((picked chunks group).map (·.propertySet)).Nodup :=
  nodup_of_chunksAt hchunks hgroup (chunksAt_eq_ok_iff.2 ⟨hlt, rfl⟩)

theorem mem_tidy {pos : ℕ} : pos ∈ tidy group ↔ pos ∈ group := by
  simp [tidy, List.mem_eraseDups]

theorem tidy_perm (h : group.Nodup) : (tidy group).Perm group := by
  refine (List.perm_ext_iff_of_nodup ?_ h).2 fun pos => mem_tidy
  exact (List.mergeSort_perm _ _).nodup_iff.2 (nodup_eraseDups group)

/-! ### Clusters of groups -/

/-- A cluster is made of the chunks at the positions of a group. -/
structure OfGroup (mode : Mode) (chunks : List Chunk) (group : List ℕ) (c : Cluster) : Prop where
  lt : ∀ pos ∈ group, pos < chunks.length
  mode_eq : c.mode = mode
  mem_members : ∀ x, x ∈ c.members ↔ ∃ k ∈ picked chunks group, x ∈ k.members
  mem_chunkKeys : ∀ key, key ∈ c.chunkKeys ↔ ∃ k ∈ picked chunks group, k.properties = key
  membersCount_eq : group.Nodup →
    c.statistics.membersCount = ((picked chunks group).map (·.weight)).sum

/-- The clusters are those of the groups, in some order. -/
def Assembled (mode : Mode) (chunks : List Chunk) (groups : List (List ℕ))
    (clusters : List Cluster) : Prop :=
  ∃ ordered : List (List ℕ), ordered.Perm groups ∧
    List.Forall₂ (OfGroup mode chunks) ordered clusters

/-- What a draft of a group becomes when it gets its number. -/
theorem ofGroup_of_draft {similarities : Similarities} {group : List ℕ} {made : Draft} {index : ℕ}
    (h : draft chunks similarities group = .ok made) : OfGroup mode chunks group
      { id := index + 1, mode, members := made.members, properties := made.properties,
        chunkKeys := made.chunkKeys, statistics := made.statistics } := by
  obtain ⟨cs, hcs, hmade⟩ := bind_eq_ok_iff.1 h
  cases hmade
  obtain ⟨hlt, rfl⟩ := chunksAt_eq_ok_iff.1 hcs
  have hmem {k : Chunk} : k ∈ picked chunks (tidy group) ↔ k ∈ picked chunks group := by
    simp only [mem_picked_iff, mem_tidy]
  refine ⟨fun pos hpos => hlt pos (mem_tidy.2 hpos), rfl, fun x => ?_, fun key => ?_,
    fun hgroup => ?_⟩
  · rw [mem_foldl_addAll_empty]
    simp only [hmem]
  · simp only [List.mem_map, hmem]
  · exact (total_eq_sum _).trans ((picked_perm (tidy_perm hgroup)).map _).sum_eq

theorem assembled_of_assemble {similarities : Similarities} {groups : List (List ℕ)}
    {clusters : List Cluster} (h : assemble mode chunks similarities groups = .ok clusters) :
    Assembled mode chunks groups clusters := by
  obtain ⟨drafts, hdrafts, h⟩ := bind_eq_ok_iff.1 h
  cases h
  have hall := (mapM_eq_ok_iff.1 hdrafts).flip
  obtain ⟨ordered, hordered, hperm⟩ :=
    List.perm_comp_forall₂ (List.mergeSort_perm drafts Draft.ordered) hall
  refine ⟨ordered, hperm, ?_⟩
  have hnumbered (start : ℕ) (ds : List Draft) (gs : List (List ℕ))
      (hds : List.Forall₂ (fun d g => draft chunks similarities g = .ok d) ds gs) :
      List.Forall₂ (OfGroup mode chunks) gs ((ds.zipIdx start).map fun x =>
        { id := x.2 + 1, mode, members := x.1.members, properties := x.1.properties,
          chunkKeys := x.1.chunkKeys, statistics := x.1.statistics }) := by
    induction hds generalizing start with
    | nil => exact .nil
    | cons hd _ ih => exact .cons (ofGroup_of_draft hd) (ih (start + 1))
  exact hnumbered 0 _ _ hordered

section Assembled

variable {groups : List (List ℕ)} {clusters : List Cluster}

theorem Assembled.exists_group (h : Assembled mode chunks groups clusters) (hc : c ∈ clusters) :
    ∃ group ∈ groups, OfGroup mode chunks group c := by
  obtain ⟨ordered, hperm, hall⟩ := h
  simp only [← hperm.mem_iff]
  clear hperm
  induction hall with
  | nil => cases hc
  | cons hfirst _ ih =>
    rcases List.mem_cons.1 hc with rfl | hc
    · exact ⟨_, List.mem_cons_self, hfirst⟩
    · obtain ⟨group, hgroup, hof⟩ := ih hc
      exact ⟨group, List.mem_cons_of_mem _ hgroup, hof⟩

theorem Assembled.exists_cluster (h : Assembled mode chunks groups clusters)
    (hgroup : group ∈ groups) : ∃ c ∈ clusters, OfGroup mode chunks group c := by
  obtain ⟨ordered, hperm, hall⟩ := h
  rw [← hperm.mem_iff] at hgroup
  clear hperm
  induction hall with
  | nil => cases hgroup
  | cons hfirst _ ih =>
    rcases List.mem_cons.1 hgroup with rfl | hgroup
    · exact ⟨_, List.mem_cons_self, hfirst⟩
    · obtain ⟨c, hc, hof⟩ := ih hgroup
      exact ⟨c, List.mem_cons_of_mem _ hc, hof⟩

/-- A trait of clusters that the group of each fixes comes in some order of the groups. -/
theorem Assembled.map_perm {γ : Type} (h : Assembled mode chunks groups clusters)
    (trait : Cluster → γ) (fixed : List ℕ → γ)
    (htrait : ∀ group ∈ groups, ∀ c, OfGroup mode chunks group c → trait c = fixed group) :
    (clusters.map trait).Perm (groups.map fixed) := by
  obtain ⟨ordered, hperm, hall⟩ := h
  refine List.Perm.trans (List.Perm.of_eq ?_) (hperm.map fixed)
  simp only [← hperm.mem_iff] at htrait
  clear hperm
  induction hall with
  | nil => rfl
  | cons hfirst _ ih =>
    rw [List.map_cons, List.map_cons, htrait _ List.mem_cons_self _ hfirst,
      ih fun group hgroup => htrait group (List.mem_cons_of_mem _ hgroup)]

end Assembled

end Cluster

/-! ### The steps of a clustering -/

namespace Clustering

variable {α : Type} (finder : CommunityFinder) (policy : Policy) (chunks : List Chunk)

/-- The partition that a policy asks for. -/
def partitionOf : Except Failure Partition :=
  match policy.strategy with
  | .communities => Partition.graphOf policy chunks >>= Partition.ofGraph finder policy chunks
  | .exact => .ok { groups := (List.range chunks.length).map fun pos => [pos] }

/-- The groups after chunks have joined further ones, if they may. -/
def joinedGroups (groups : List (List ℕ)) : Except Failure (List (List ℕ)) :=
  if policy.allowOverlap && !groups.isEmpty then Cluster.overlapped policy chunks groups
  else .ok groups

/-- The steps of a clustering, with what each of them gives. -/
structure Steps (made : Partition) (large joined : List (List ℕ)) (clusters : List Cluster) :
    Prop where
  made_eq : partitionOf finder policy chunks = .ok made
  large_eq : Cluster.largeGroups policy chunks made.groups = .ok large
  joined_eq : joinedGroups policy chunks large = .ok joined
  clusters_eq : Cluster.assemble policy.mode chunks made.similarities joined = .ok clusters

/-- What a clustering is made of: of the steps, or it has no clusters because it was stopped or
there are no chunks. -/
def Made (clustering : Clustering) : Prop :=
  (clustering.clusters = [] ∧
    (clustering.aborted = false → chunks = [] ∧ clustering = conclude [] [] none false)) ∨
  ∃ made large joined clusters, Steps finder policy chunks made large joined clusters ∧
    clustering = conclude chunks clusters (some made) clustering.aborted

theorem made_of_stopped {partition : Option Partition} {others : List Chunk} :
    Made finder policy chunks (conclude others [] partition true) :=
  .inl ⟨rfl, fun hcomplete => by cases hcomplete⟩

theorem made_finish {made : Partition} (hmade : partitionOf finder policy chunks = .ok made) :
    Answers (Made finder policy chunks) (finish policy chunks made : Run α → _) := by
  rw [funext (finish_eq policy chunks made)]
  refine .afterComputing fun large hlarge => .gate (made_of_stopped _ _ _) ?_
  refine .afterComputing fun joined hjoined => .afterComputing fun clusters hclusters => ?_
  intro run after clustering hok
  cases hok
  exact .inr ⟨made, large, joined, clusters, ⟨hmade, hlarge, hjoined, hclusters⟩, rfl⟩

theorem made_continued_divide : Answers (Made finder policy chunks) fun run : Run α =>
    divide finder policy chunks run >>= continued policy chunks := by
  have hearly : Made finder policy chunks (conclude chunks [] none true) := made_of_stopped _ _ _
  cases hstrategy : policy.strategy with
  | communities =>
    simp only [continued_divide_of_communities finder policy chunks hstrategy]
    refine .afterComputing fun g hg => .gate hearly (.afterComputing fun made hmade => ?_)
    refine .gate hearly (made_finish finder policy chunks ?_)
    rw [partitionOf, hstrategy]
    exact bind_eq_ok_iff.2 ⟨g, hg, hmade⟩
  | exact =>
    simp only [continued_divide_of_exact finder policy chunks hstrategy]
    refine .gate hearly (.gate hearly (made_finish finder policy chunks ?_))
    rw [partitionOf, hstrategy]

theorem made_ofPopulation (records : List Record) :
    Answers (Made finder policy (chunksFor policy.mode records))
      (ofPopulation finder policy records : Run α → _) := by
  rw [funext (ofPopulation_eq finder policy records)]
  refine .gate (made_of_stopped _ _ _) ?_
  split
  next hempty =>
    refine .gate (made_of_stopped _ _ _) (.pure (.inl ⟨rfl, fun _ => ⟨?_, rfl⟩⟩))
    exact List.isEmpty_iff.1 hempty
  next => exact made_continued_divide finder policy _

/-- Every cluster of a clustering gathers some of the chunks. -/
def Gathered (mode : Mode) (chunks : List Chunk) (clustering : Clustering) : Prop :=
  ∀ c ∈ clustering.clusters, ∃ cs, Cluster.Gathers mode chunks c cs

theorem gathered_ofPopulation {records : List Record}
    (hchunks : ((chunksFor policy.mode records).map (·.propertySet)).Nodup) :
    Answers (Gathered policy.mode (chunksFor policy.mode records))
      (ofPopulation finder policy records : Run α → _) := by
  intro run after clustering h c hc
  rcases made_ofPopulation finder policy records run after clustering h with
    ⟨hnone, -⟩ | ⟨made, large, joined, clusters, hsteps, hmade⟩
  · rw [hnone] at hc
    cases hc
  · rw [hmade] at hc
    exact Cluster.exists_gathers_of_assemble hchunks hsteps.clusters_eq hc

/-- Clusters gather chunks of the records on the axis that is clustered. -/
theorem exists_gathers {records : List Record} {run after : Run α} {clustering : Clustering}
    (h : ofPopulation finder policy records run = .ok (after, clustering)) {c : Cluster}
    (hc : c ∈ clustering.clusters) : ∃ kind cs, c.Gathers policy.mode
      (Chunk.aggregate kind .empty (Analysis.analysed policy.mode records)) cs := by
  obtain ⟨kind, hchunks⟩ := Analysis.exists_chunksFor_eq policy.mode records
  have hnodup : ((chunksFor policy.mode records).map (·.propertySet)).Nodup := by
    rw [hchunks]
    exact Chunk.nodup_propertySet_aggregate kind .empty _
  obtain ⟨cs, hcs⟩ := gathered_ofPopulation finder policy hnodup run after clustering h c hc
  rw [hchunks] at hcs
  exact ⟨kind, cs, hcs⟩

end Clustering

/-! ### What the steps keep -/

namespace Cluster

variable {policy : Policy} {chunks : List Chunk} {groups large : List (List ℕ)}

theorem profile_eq {group : List ℕ} (hlt : ∀ pos ∈ group, pos < chunks.length) :
    profile chunks group = .ok
      (((picked chunks group).map (·.weight)).sum, unionOf (picked chunks group)) := by
  unfold profile
  rw [chunksAt_eq_ok_iff.2 ⟨hlt, rfl⟩, ← total_eq_sum]
  rfl

/-- Whether a group has enough members and enough properties. -/
def isLarge (policy : Policy) (chunks : List Chunk) (group : List ℕ) : Bool :=
  !((Number.int ((picked chunks group).map (·.weight)).sum).below policy.minMembers ||
    (Number.int (unionOf (picked chunks group)).size).below policy.minProperties)

theorem largeGroups_eq (hlt : ∀ group ∈ groups, ∀ pos ∈ group, pos < chunks.length) :
    largeGroups policy chunks groups = .ok (groups.filter (isLarge policy chunks)) := by
  refine filterM_eq_ok fun group hgroup => ?_
  rw [profile_eq (hlt group hgroup)]
  rfl

end Cluster

namespace Clustering

variable {finder : CommunityFinder} {policy : Policy} {chunks : List Chunk} {made : Partition}
variable {large joined : List (List ℕ)} {clusters : List Cluster}

theorem divides_partitionOf (h : partitionOf finder policy chunks = .ok made) :
    Divides made.groups chunks.length := by
  unfold partitionOf at h
  split at h
  next =>
    obtain ⟨g, -, h⟩ := bind_eq_ok_iff.1 h
    unfold Partition.ofGraph at h
    dsimp only at h
    split at h
    next =>
      cases h
      exact divides_singletons _
    next =>
      obtain ⟨-, -, h⟩ := bind_eq_ok_iff.1 h
      cases h
      exact divides_communities _ _
  next =>
    cases h
    exact divides_singletons _

/-- Large groups are some of the groups of the partition. -/
theorem Steps.large_sublist (h : Steps finder policy chunks made large joined clusters) :
    large.Sublist made.groups := by
  have hdivides := divides_partitionOf h.made_eq
  have hlarge := h.large_eq
  rw [Cluster.largeGroups_eq fun _ => hdivides.lt] at hlarge
  rw [← Except.ok.inj hlarge]
  exact List.filter_sublist

theorem Steps.nodup_large (h : Steps finder policy chunks made large joined clusters) :
    large.flatten.Nodup :=
  (divides_partitionOf h.made_eq).nodup.sublist h.large_sublist.flatten

theorem Steps.lt_large (h : Steps finder policy chunks made large joined clusters) {group : List ℕ}
    (hgroup : group ∈ large) : ∀ pos ∈ group, pos < chunks.length :=
  (divides_partitionOf h.made_eq).lt (h.large_sublist.mem hgroup)

theorem Steps.assembled (h : Steps finder policy chunks made large joined clusters) :
    Cluster.Assembled policy.mode chunks joined clusters :=
  Cluster.assembled_of_assemble h.clusters_eq

end Clustering
end RoleMining
