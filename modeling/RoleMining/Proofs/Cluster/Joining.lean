import Mathlib.Data.List.GetD
import Mathlib.Data.List.Sigma
import Mathlib.Data.Prod.Lex
import RoleMining.Proofs.Binary64.Finite
import RoleMining.Proofs.Cluster.Accounting
import RoleMining.Proofs.Thresholds

/-!
# Joining further groups

A chunk ranks the groups it covers well enough, by coverage, by what it shares and by position, and
joins the first of them until it is in as many groups as it may be. What it covers is told by the
groups as they were before any chunk joined. So no chunk is in too many groups, every joining has
its reason, and a group is passed over only when better ones have taken all places.
-/
namespace RoleMining

namespace Cluster

/-! ### Covers -/

namespace Cover

variable {a b : Cover}

/-- The rank of a cover: coverage and shared properties count downwards. -/
def rank (c : Cover) : ℚᵒᵈ ×ₗ ℕᵒᵈ ×ₗ ℕ :=
  toLex (.toDual c.coverage.value, toLex (.toDual c.shared, c.group))

/-- A cover ranks before another by coverage, then by shared properties, then by position. -/
def Before (a b : Cover) : Prop :=
  b.coverage.value < a.coverage.value ∨
    a.coverage.value = b.coverage.value ∧
      (b.shared < a.shared ∨ a.shared = b.shared ∧ a.group < b.group)

theorem rank_lt_rank_iff : a.rank < b.rank ↔ a.Before b := by
  simp [rank, Before, Prod.Lex.toLex_lt_toLex]

theorem group_eq_of_rank_eq (h : a.rank = b.rank) : a.group = b.group :=
  congrArg (fun rank => (ofLex (ofLex rank).2).2) h

theorem ordered_eq (ha : a.coverage.isFinite = true) (hb : b.coverage.isFinite = true) :
    ordered a b = decide (a.rank ≤ b.rank) := by
  have hab := Binary64.below_iff_of_finite ha hb
  have hba := Binary64.below_iff_of_finite hb ha
  rw [Bool.eq_iff_iff, decide_eq_true_eq]
  unfold ordered
  simp only [rank, Prod.Lex.toLex_le_toLex, OrderDual.toDual_lt_toDual, OrderDual.toDual_inj, hab,
    hba]
  split_ifs with hbetter hworse hshared
  · simp [hbetter]
  · simp [hbetter, hworse.ne]
  · have he : a.coverage.value = b.coverage.value :=
      le_antisymm (not_lt.1 hbetter) (not_lt.1 hworse)
    simp [he, hshared]
  · have he : a.coverage.value = b.coverage.value :=
      le_antisymm (not_lt.1 hbetter) (not_lt.1 hworse)
    simp [he, not_not.1 hshared]

/-- Sorted covers of different groups are strictly ranked. -/
theorem pairwise_mergeSort_ordered {covers : List Cover}
    (hfinite : ∀ c ∈ covers, c.coverage.isFinite = true) (hgroups : (covers.map (·.group)).Nodup) :
    (covers.mergeSort ordered).Pairwise Before := by
  have hsort : covers.mergeSort ordered = covers.mergeSort fun a b => decide (a.rank ≤ b.rank) := by
    have hmap := List.map_mergeSort (f := fun c => c) (l := covers) fun a ha b hb =>
      ordered_eq (hfinite a ha) (hfinite b hb)
    rwa [List.map_id', List.map_id'] at hmap
  have hsorted : (covers.mergeSort fun a b => decide (a.rank ≤ b.rank)).Pairwise
      fun a b => decide (a.rank ≤ b.rank) = true :=
    List.pairwise_mergeSort (by simpa using fun a b c => le_trans)
      (by simpa using fun a b => le_total _ _) covers
  have hdistinct := List.pairwise_map.1
    (((List.mergeSort_perm covers fun a b => decide (a.rank ≤ b.rank)).map _).nodup_iff.2 hgroups)
  rw [hsort]
  refine (hsorted.and hdistinct).imp fun {a b} hab => ?_
  rw [← rank_lt_rank_iff]
  exact lt_of_le_of_ne (of_decide_eq_true hab.1) fun he => hab.2 (group_eq_of_rank_eq he)

end Cover

/-- What a property set shares with the union of a group, if there is such a group. -/
def coverOf (unions : List IdSet) (properties : IdSet) (group : ℕ) : Cover :=
  let union := unions.getD group .empty
  let shared := (properties.inter union).size
  { group, shared, coverage := Arithmetic.ratio shared union.size }

section Covers

variable {unions : List IdSet} {properties : IdSet} {c : Cover}

theorem isFinite_coverage (unions : List IdSet) (properties : IdSet) (group : ℕ) :
    (coverOf unions properties group).coverage.isFinite = true := by
  have hle : ((properties.inter (unions.getD group .empty)).size : ℚ) /
      (unions.getD group .empty).size ≤ 1 :=
    div_le_one_of_le₀ (by exact_mod_cast IdSet.size_inter_le_right _ _) (by positivity)
  refine Binary64.isFinite_ofRat ?_
  rw [Int.cast_natCast, Int.cast_natCast, abs_of_nonneg (by positivity)]
  exact hle.trans_lt (one_lt_zpow₀ (by norm_num) (by norm_num))

theorem mem_coversOf_iff : c ∈ coversOf unions properties ↔
    c.group < unions.length ∧ c = coverOf unions properties c.group ∧ c.shared ≠ 0 := by
  simp only [coversOf, List.mem_filterMap, Prod.exists, List.mem_zipIdx_iff_getElem?]
  constructor
  · intro h
    obtain ⟨union, group, hunion, hc⟩ := h
    have hlt := (List.getElem?_eq_some_iff.1 hunion).1
    split_ifs at hc with hshared
    obtain rfl := Option.some_inj.1 hc
    refine ⟨hlt, ?_, hshared⟩
    simp [coverOf, hunion]
  · intro h
    obtain ⟨hlt, hc, hshared⟩ := h
    have hunion : unions[c.group]? = some (unions.getD c.group .empty) := by simp [hlt]
    rw [hc] at hshared
    exact ⟨_, _, hunion, (if_neg hshared).trans (congrArg some hc.symm)⟩

theorem nodup_group_coversOf (unions : List IdSet) (properties : IdSet) :
    ((coversOf unions properties).map (·.group)).Nodup := by
  have hindexes := List.pairwise_map.1 (List.nodup_zipIdx_map_snd unions)
  refine List.pairwise_map.2 (List.pairwise_filterMap.2 (hindexes.imp ?_))
  intro a b hne c hc d hd
  dsimp only at hc hd
  split_ifs at hc hd
  rw [← Option.some_inj.1 hc, ← Option.some_inj.1 hd]
  exact hne

end Covers

/-! ### What one chunk joins -/

/-- The covers that qualify, the better ones first. -/
def ranked (policy : Policy) (unions : List IdSet) (home : Option ℕ) (properties : IdSet) :
    List Cover :=
  ((coversOf unions properties).filter (Cover.qualifies policy home)).mergeSort Cover.ordered

/-- How many places are left beside the chunk's own group. -/
def room (m : ℤ) (home : Option ℕ) : ℕ := (m - if home.isSome then 1 else 0).toNat

section Ranked

variable {policy : Policy} {unions : List IdSet} {home : Option ℕ} {properties : IdSet}
variable {c : Cover} {m : ℤ}

theorem mem_ranked_iff : c ∈ ranked policy unions home properties ↔
    c ∈ coversOf unions properties ∧ c.qualifies policy home = true := by
  rw [ranked, List.mem_mergeSort, List.mem_filter]

theorem pairwise_ranked (policy : Policy) (unions : List IdSet) (home : Option ℕ)
    (properties : IdSet) : (ranked policy unions home properties).Pairwise Cover.Before := by
  refine Cover.pairwise_mergeSort_ordered (fun c hc => ?_) ?_
  · rw [(mem_coversOf_iff.1 (List.mem_of_mem_filter hc)).2.1]
    exact isFinite_coverage _ _ _
  · exact (nodup_group_coversOf unions properties).sublist (List.filter_sublist.map _)

theorem nodup_group_ranked (policy : Policy) (unions : List IdSet) (home : Option ℕ)
    (properties : IdSet) : ((ranked policy unions home properties).map (·.group)).Nodup := by
  rw [ranked, ((List.mergeSort_perm _ _).map _).nodup_iff]
  exact (nodup_group_coversOf unions properties).sublist (List.filter_sublist.map _)

theorem slots_eq (hmax : policy.maxClusters = .int m) : slots policy home = .ok (room m home) := by
  unfold slots
  rw [hmax]
  rfl

theorem joins_eq (hmax : policy.maxClusters = .int m) : joins policy unions home properties =
    .ok (((ranked policy unions home properties).take (room m home)).map (·.group)) := by
  unfold joins
  rw [slots_eq hmax]
  dsimp only
  split_ifs with hnone
  · rw [ranked, List.isEmpty_iff.1 hnone]
    simp [pure, Except.pure]
  · rfl

end Ranked

/-! ### What all chunks join -/

section Groups

variable {groups : List (List ℕ)} {g g' pos : ℕ}

theorem mem_getD_iff : pos ∈ groups.getD g [] ↔ ∃ group, groups[g]? = some group ∧ pos ∈ group := by
  rw [List.getD_eq_getElem?_getD]
  cases groups[g]? <;> simp

theorem getD_mem (hg : g < groups.length) : groups.getD g [] ∈ groups := by
  rw [List.getD_eq_getElem _ _ hg]
  exact List.getElem_mem hg

theorem lt_of_mem_getD (h : pos ∈ groups.getD g []) : g < groups.length := by
  obtain ⟨group, hgroup, -⟩ := mem_getD_iff.1 h
  exact (List.getElem?_eq_some_iff.1 hgroup).1

variable (hgroups : groups.flatten.Nodup)
include hgroups

/-- Disjoint groups have no position in common. -/
theorem eq_of_mem_getD (h : pos ∈ groups.getD g []) (h' : pos ∈ groups.getD g' []) : g = g' := by
  have hdisjoint := List.pairwise_iff_getElem.1 (List.nodup_flatten.1 hgroups).2
  have hlt := lt_of_mem_getD h
  have hlt' := lt_of_mem_getD h'
  rw [List.getD_eq_getElem _ _ hlt] at h
  rw [List.getD_eq_getElem _ _ hlt'] at h'
  rcases lt_trichotomy g g' with hgg' | rfl | hgg'
  · exact absurd h' (hdisjoint g g' hlt hlt' hgg' h)
  · rfl
  · exact absurd h (hdisjoint g' g hlt' hlt hgg' h')

theorem homeOf_eq_some_iff : homeOf groups pos = some g ↔ pos ∈ groups.getD g [] := by
  have hmem {group : List ℕ} {i : ℕ} : (group, i) ∈ groups.zipIdx.filter (fun x =>
      x.1.contains pos) ↔ groups[i]? = some group ∧ pos ∈ group := by
    simp [List.mem_zipIdx_iff_getElem?]
  unfold homeOf
  rw [Option.map_eq_some_iff]
  constructor
  · intro h
    obtain ⟨⟨group, i⟩, hlast, rfl⟩ := h
    exact mem_getD_iff.2 ⟨group, hmem.1 (List.mem_of_getLast? hlast)⟩
  · intro h
    obtain ⟨group, hgroup⟩ := mem_getD_iff.1 h
    have hne := List.ne_nil_of_mem (hmem.2 hgroup)
    refine ⟨_, List.getLast?_eq_some_getLast hne, ?_⟩
    have hlast := hmem.1 (List.getLast_mem hne)
    exact eq_of_mem_getD hgroups (mem_getD_iff.2 ⟨_, hlast⟩) h

end Groups

/-- How the chunk at a position lies over a group as it is given. -/
def coverAt (chunks : List Chunk) (groups : List (List ℕ)) (pos g : ℕ) : Cover :=
  coverOf (groups.map fun group => unionOf (picked chunks group))
    ((chunks.map (·.propertySet)).getD pos .empty) g

/-- The groups that the chunk at a position joins. -/
def joinedAt (policy : Policy) (m : ℤ) (chunks : List Chunk) (groups : List (List ℕ)) (pos : ℕ) :
    List ℕ :=
  ((ranked policy (groups.map fun group => unionOf (picked chunks group)) (homeOf groups pos)
    ((chunks.map (·.propertySet)).getD pos .empty)).take (room m (homeOf groups pos))).map (·.group)

/-- A group with the positions of the chunks that join it. -/
def extendedAt (policy : Policy) (m : ℤ) (chunks : List Chunk) (groups : List (List ℕ)) (g : ℕ) :
    List ℕ :=
  groups.getD g [] ++
    (List.range chunks.length).filter fun pos => g ∈ joinedAt policy m chunks groups pos

section Overlapped

variable {policy : Policy} {m : ℤ} {chunks : List Chunk} {groups extended : List (List ℕ)}

theorem isSubset_known (group : List ℕ) : (unionOf (picked chunks group)).isSubset
    ((chunks.map (·.propertySet)).foldl IdSet.union .empty) = true := by
  rw [IdSet.isSubset_iff]
  intro x hx
  obtain ⟨k, hk, hxk⟩ := mem_foldl_addAll_empty.1 hx
  have hknown : x ∈ (chunks.map (·.propertySet)).foldl IdSet.union .empty ↔
      ∃ s ∈ chunks.map (·.propertySet), x ∈ s := IdSet.mem_foldl_union_empty
  refine hknown.2 ⟨k.propertySet, ?_, ?_⟩
  · exact List.mem_map_of_mem (mem_of_mem_picked hk)
  · exact IdSet.mem_ofList.2 hxk

theorem zipIdx_extend_eq (n : ℕ) (joined : ℕ → List ℕ) : (groups.zipIdx.map fun x =>
    x.1 ++ (((List.range n).map fun pos => (pos, joined pos)).filter
      fun y => y.2.contains x.2).map (·.1)) =
        (List.range groups.length).map fun g =>
          groups.getD g [] ++ (List.range n).filter fun pos => g ∈ joined pos := by
  refine List.ext_getElem (by simp) fun g hg _ => ?_
  have hlen : g < groups.length := by simpa using hg
  have hgroup : groups[g] = groups.getD g [] := (List.getD_eq_getElem _ _ hlen).symm
  simp only [List.getElem_map, List.getElem_zipIdx, List.getElem_range, zero_add, hgroup,
    List.filter_map, List.map_map, List.contains_eq_mem]
  exact congrArg _ (List.map_id _)

/-- What chunks join, when they have a table. -/
theorem overlapped_eq {rows : List Record} (hmembers : ∀ c ∈ chunks, c.members ≠ [])
    (hlt : ∀ group ∈ groups, ∀ pos ∈ group, pos < chunks.length)
    (hrows : Chunk.expand chunks = .ok rows) : overlapped policy chunks groups =
      ((List.range chunks.length).mapM fun pos =>
        joins policy (groups.map fun group => unionOf (picked chunks group)) (homeOf groups pos)
          ((chunks.map (·.propertySet)).getD pos .empty) >>= fun joined =>
        .ok (pos, joined)) >>= fun added =>
      .ok (groups.zipIdx.map fun x =>
        x.1 ++ (added.filter fun y => y.2.contains x.2).map (·.1)) := by
  unfold overlapped
  rw [hrows]
  dsimp only [bind, Except.bind]
  rw [Chunk.properties_expand hmembers hrows,
    mapM_eq_ok_map (g := fun group => unionOf (picked chunks group))]
  · dsimp only
    rw [mapM_congr fun pos hpos => ?_]
    · rfl
    · have hproperties : (chunks.map (·.propertySet))[pos]? =
          some ((chunks.map (·.propertySet)).getD pos .empty) := by
        simp [List.mem_range.1 hpos]
      rw [hproperties]
      rfl
  · intro group hgroup
    rw [profile_eq (hlt group hgroup)]
    exact if_pos (isSubset_known group)

/-- Joining succeeds unless a chunk weighs less than a member does, and extends every group. -/
theorem overlapped_eq_ok_iff (hmax : policy.maxClusters = .int m)
    (hmembers : ∀ c ∈ chunks, c.members ≠ [])
    (hlt : ∀ group ∈ groups, ∀ pos ∈ group, pos < chunks.length) :
    overlapped policy chunks groups = .ok extended ↔ (∀ c ∈ chunks, 1 ≤ c.weight) ∧
      extended = (List.range groups.length).map (extendedAt policy m chunks groups) := by
  have hextends {rows : List Record} (hrows : Chunk.expand chunks = .ok rows) :
      overlapped policy chunks groups =
        .ok ((List.range groups.length).map (extendedAt policy m chunks groups)) := by
    rw [overlapped_eq hmembers hlt hrows,
      mapM_eq_ok_map (g := fun pos => (pos, joinedAt policy m chunks groups pos))]
    · exact congrArg Except.ok (zipIdx_extend_eq _ _)
    · intro pos _
      rw [joins_eq hmax]
      rfl
  rw [← Chunk.exists_expand_iff hmembers]
  constructor
  · intro h
    obtain ⟨rows, hrows, -⟩ := bind_eq_ok_iff.1 h
    exact ⟨⟨rows, hrows⟩, Except.ok.inj (h.symm.trans (hextends hrows))⟩
  · intro h
    obtain ⟨⟨rows, hrows⟩, rfl⟩ := h
    exact hextends hrows

end Overlapped

/-! ### Capped, justified and greedy -/

/-- Whether a cover is large enough for a chunk to join. -/
structure Cover.Enough (policy : Policy) (c : Cover) : Prop where
  coverage : policy.minCoverage.atMost (.float c.coverage) = true
  shared : policy.minShared.atMost (.int c.shared) = true

/-- What holds of groups that chunks have joined, when a chunk may be in `m` groups. -/
structure Joined (policy : Policy) (m : ℤ) (chunks : List Chunk) (groups extended : List (List ℕ)) :
    Prop where
  /-- There are as many groups as before, and each starts with what it was. -/
  keeps : List.Forall₂ (· <+: ·) groups extended
  lt : ∀ group ∈ extended, ∀ pos ∈ group, pos < chunks.length
  nodup : ∀ group ∈ extended, group.Nodup
  capped : ∀ pos, (extended.countP (pos ∈ ·) : ℤ) ≤ m
  justified : ∀ pos g, pos ∈ extended.getD g [] → pos ∉ groups.getD g [] →
    (coverAt chunks groups pos g).Enough policy
  /-- Only when all places are taken is a group passed over, and none is joined that ranks lower. -/
  greedy : ∀ pos < chunks.length, ∀ g < groups.length, pos ∉ extended.getD g [] →
    (coverAt chunks groups pos g).Enough policy →
      (extended.countP (pos ∈ ·) : ℤ) = m ∧
      ∀ g', pos ∈ extended.getD g' [] → pos ∉ groups.getD g' [] →
        (coverAt chunks groups pos g').Before (coverAt chunks groups pos g)

section Joining

variable {policy : Policy} {m : ℤ} {chunks : List Chunk} {groups : List (List ℕ)} {pos g g' : ℕ}

theorem qualifies_iff {home : Option ℕ} {c : Cover} : c.qualifies policy home = true ↔
    c.Enough policy ∧ home ≠ some c.group := by
  simp only [Cover.qualifies, Bool.and_eq_true, bne_iff_ne]
  exact and_congr_left' ⟨fun h => ⟨h.1, h.2⟩, fun h => ⟨h.coverage, h.shared⟩⟩

section Home

variable (hgroups : groups.flatten.Nodup)
include hgroups

theorem mem_ranked_coverAt_iff {c : Cover} :
    c ∈ ranked policy (groups.map fun group => unionOf (picked chunks group)) (homeOf groups pos)
        ((chunks.map (·.propertySet)).getD pos .empty) ↔
      c.group < groups.length ∧ c = coverAt chunks groups pos c.group ∧ c.shared ≠ 0 ∧
        c.Enough policy ∧ pos ∉ groups.getD c.group [] := by
  rw [mem_ranked_iff, mem_coversOf_iff, List.length_map, qualifies_iff]
  simp only [ne_eq, homeOf_eq_some_iff hgroups, and_assoc]
  rfl

/-- A group that is joined has a large enough cover, and is not the chunk's own. -/
theorem enough_of_mem_joinedAt (h : g ∈ joinedAt policy m chunks groups pos) :
    g < groups.length ∧ (coverAt chunks groups pos g).Enough policy ∧ pos ∉ groups.getD g [] := by
  obtain ⟨c, hc, rfl⟩ := List.mem_map.1 h
  obtain ⟨hlt, he, -, henough, hhome⟩ :=
    (mem_ranked_coverAt_iff hgroups).1 (List.mem_of_mem_take hc)
  rw [he] at henough
  exact ⟨hlt, henough, hhome⟩

omit hgroups in
theorem nodup_joinedAt (policy : Policy) (m : ℤ) (chunks : List Chunk) (groups : List (List ℕ))
    (pos : ℕ) : (joinedAt policy m chunks groups pos).Nodup :=
  (nodup_group_ranked policy _ _ _).sublist ((List.take_sublist _ _).map _)

omit hgroups in
theorem length_joinedAt_le : (joinedAt policy m chunks groups pos).length ≤
    room m (homeOf groups pos) := by
  rw [joinedAt, List.length_map]
  exact List.length_take_le _ _

/-- A chunk ranks every foreign group of which it covers enough. -/
theorem coverAt_mem_ranked (hshared : policy.minShared.below 1 = false) (hg : g < groups.length)
    (henough : (coverAt chunks groups pos g).Enough policy) (hhome : pos ∉ groups.getD g []) :
    coverAt chunks groups pos g ∈ ranked policy
      (groups.map fun group => unionOf (picked chunks group)) (homeOf groups pos)
      ((chunks.map (·.propertySet)).getD pos .empty) := by
  have hsome : (coverAt chunks groups pos g).shared ≠ 0 := by
    intro hnone
    have hlow := henough.shared
    rw [hnone] at hlow
    rw [show policy.minShared.below 1 = true from Number.below_of_atMost hlow one_pos] at hshared
    cases hshared
  exact (mem_ranked_coverAt_iff hgroups).2 ⟨hg, rfl, hsome, henough, hhome⟩

/-- A group with a large enough cover is passed over only for better ones. -/
theorem before_of_not_mem_joinedAt (hshared : policy.minShared.below 1 = false)
    (hg : g < groups.length) (henough : (coverAt chunks groups pos g).Enough policy)
    (hhome : pos ∉ groups.getD g []) (h : g ∉ joinedAt policy m chunks groups pos) :
    (joinedAt policy m chunks groups pos).length = room m (homeOf groups pos) ∧
      ∀ g' ∈ joinedAt policy m chunks groups pos,
        (coverAt chunks groups pos g').Before (coverAt chunks groups pos g) := by
  have hmem := coverAt_mem_ranked hgroups hshared hg henough hhome
  have hranked := pairwise_ranked policy (groups.map fun group => unionOf (picked chunks group))
    (homeOf groups pos) ((chunks.map (·.propertySet)).getD pos .empty)
  rw [← List.take_append_drop (room m (homeOf groups pos)) (ranked ..)] at hmem hranked
  have hdrop := (List.mem_append.1 hmem).resolve_left fun htake =>
    h (List.mem_map.2 ⟨_, htake, rfl⟩)
  constructor
  · have hlong := List.length_pos_of_mem hdrop
    rw [List.length_drop] at hlong
    rw [joinedAt, List.length_map, List.length_take]
    omega
  · intro g' hg'
    obtain ⟨c, hc, rfl⟩ := List.mem_map.1 hg'
    obtain ⟨-, he, -⟩ := (mem_ranked_coverAt_iff hgroups).1 (List.mem_of_mem_take hc)
    rw [← he]
    exact (List.pairwise_append.1 hranked).2.2 c hc _ hdrop

/-! ### The extended groups -/

omit hgroups in
theorem mem_extendedAt_iff : pos ∈ extendedAt policy m chunks groups g ↔
    pos ∈ groups.getD g [] ∨ pos < chunks.length ∧ g ∈ joinedAt policy m chunks groups pos := by
  simp [extendedAt]

theorem getD_extended (policy : Policy) (m : ℤ) (chunks : List Chunk) (g : ℕ) :
    ((List.range groups.length).map (extendedAt policy m chunks groups)).getD g [] =
      extendedAt policy m chunks groups g := by
  by_cases hg : g < groups.length
  · simp [List.getD_eq_getElem?_getD, hg]
  · have hnone : ∀ pos, g ∉ joinedAt policy m chunks groups pos :=
      fun pos hpos => hg (enough_of_mem_joinedAt hgroups hpos).1
    simp [extendedAt, List.getD_eq_getElem?_getD, hg, hnone]

/-- A chunk is in its own group and in those it joins. -/
theorem countP_extended (hpos : pos < chunks.length) :
    ((List.range groups.length).map (extendedAt policy m chunks groups)).countP (pos ∈ ·) =
      (homeOf groups pos).toList.length + (joinedAt policy m chunks groups pos).length := by
  rw [List.countP_map, List.countP_eq_length_filter, ← List.length_append]
  refine List.Perm.length_eq ((List.perm_ext_iff_of_nodup (List.nodup_range.filter _) ?_).2 ?_)
  · refine List.nodup_append.2 ⟨?_, nodup_joinedAt policy m chunks groups pos, ?_⟩
    · cases homeOf groups pos <;> simp
    · intro g hg g' hg' he
      subst he
      have hhome := (homeOf_eq_some_iff hgroups).1 (Option.mem_toList.1 hg)
      exact (enough_of_mem_joinedAt hgroups hg').2.2 hhome
  · intro g
    simp only [List.mem_filter, List.mem_range, Function.comp_apply, decide_eq_true_eq,
      mem_extendedAt_iff, List.mem_append, Option.mem_toList, homeOf_eq_some_iff hgroups, hpos,
      true_and]
    refine and_iff_right_of_imp fun h => ?_
    rcases h with hhome | hjoined
    · exact lt_of_mem_getD hhome
    · exact (enough_of_mem_joinedAt hgroups hjoined).1

theorem nodup_extendedAt (policy : Policy) (m : ℤ) (chunks : List Chunk) (hg : g < groups.length) :
    (extendedAt policy m chunks groups g).Nodup := by
  refine List.nodup_append.2 ⟨?_, List.nodup_range.filter _, ?_⟩
  · exact (List.nodup_flatten.1 hgroups).1 _ (getD_mem hg)
  · intro pos hpos pos' hpos' he
    subst he
    have hjoined := of_decide_eq_true (List.mem_filter.1 hpos').2
    exact (enough_of_mem_joinedAt hgroups hjoined).2.2 hpos

end Home

/-- The places that are left and the one that is taken are as many as there may be. -/
theorem room_add (hm : 1 ≤ m) (home : Option ℕ) : (home.toList.length + room m home : ℤ) = m := by
  unfold room
  cases home with
  | none => simp; omega
  | some g => simp; omega

theorem joined_extended (hm : 1 ≤ m) (hshared : policy.minShared.below 1 = false)
    (hlt : ∀ group ∈ groups, ∀ pos ∈ group, pos < chunks.length) (hgroups : groups.flatten.Nodup) :
    Joined policy m chunks groups
      ((List.range groups.length).map (extendedAt policy m chunks groups)) := by
  have hsame : (List.range groups.length).map (groups.getD · []) = groups :=
    List.ext_getElem (by simp) fun g _ hg => by simp [hg]
  have hin {pos g : ℕ} (h : pos ∈ extendedAt policy m chunks groups g) : pos < chunks.length := by
    rcases mem_extendedAt_iff.1 h with hhome | hjoined
    · exact hlt _ (getD_mem (lt_of_mem_getD hhome)) pos hhome
    · exact hjoined.1
  refine { keeps := ?keeps, lt := ?lt, nodup := ?nodup, capped := ?capped,
           justified := ?justified, greedy := ?greedy }
  case keeps =>
    have hprefix : List.Forall₂ (· <+: ·) ((List.range groups.length).map (groups.getD · []))
        ((List.range groups.length).map (extendedAt policy m chunks groups)) := by
      rw [List.forall₂_map_left_iff, List.forall₂_map_right_iff, List.forall₂_same]
      exact fun g _ => List.prefix_append _ _
    rwa [hsame] at hprefix
  case lt =>
    intro group hgroup pos hpos
    obtain ⟨g, -, rfl⟩ := List.mem_map.1 hgroup
    exact hin hpos
  case nodup =>
    intro group hgroup
    obtain ⟨g, hg, rfl⟩ := List.mem_map.1 hgroup
    exact nodup_extendedAt hgroups policy m chunks (List.mem_range.1 hg)
  case capped =>
    intro pos
    by_cases hpos : pos < chunks.length
    · rw [countP_extended hgroups hpos]
      have hroom := room_add hm (homeOf groups pos)
      have hle : (joinedAt policy m chunks groups pos).length ≤ room m (homeOf groups pos) :=
        length_joinedAt_le
      omega
    · rw [List.countP_eq_zero.2 fun group hgroup hmem => ?_]
      · omega
      · obtain ⟨g, -, rfl⟩ := List.mem_map.1 hgroup
        exact hpos (hin (of_decide_eq_true hmem))
  case justified =>
    intro pos g hpos hhome
    rw [getD_extended hgroups] at hpos
    have hjoined := (mem_extendedAt_iff.1 hpos).resolve_left hhome
    exact (enough_of_mem_joinedAt hgroups hjoined.2).2.1
  case greedy =>
    intro pos hpos g hg hout henough
    simp only [getD_extended hgroups, mem_extendedAt_iff, hpos, true_and, not_or] at hout ⊢
    obtain ⟨hfull, hbefore⟩ := before_of_not_mem_joinedAt hgroups hshared hg henough hout.1 hout.2
    rw [countP_extended hgroups hpos, hfull]
    refine ⟨by exact_mod_cast room_add hm (homeOf groups pos), fun g' hg' hhome => ?_⟩
    exact hbefore g' (hg'.resolve_left hhome)

end Joining

/-! ### Clusters of one member -/

/-- A position is in one of some disjoint groups, or in none. -/
theorem countP_le_one {groups : List (List ℕ)} (h : groups.flatten.Nodup) (pos : ℕ) :
    groups.countP (pos ∈ ·) ≤ 1 := by
  induction groups with
  | nil => simp
  | cons group groups ih =>
    rw [List.flatten_cons, List.nodup_append] at h
    obtain ⟨-, hrest, hdisjoint⟩ := h
    rw [List.countP_cons]
    by_cases hpos : pos ∈ group
    · have hnone : groups.countP (pos ∈ ·) = 0 := by
        refine List.countP_eq_zero.2 fun other hother hmem => ?_
        have hrest := List.mem_flatten.2 ⟨other, hother, of_decide_eq_true hmem⟩
        exact hdisjoint pos hpos pos hrest rfl
      simp [hnone, hpos]
    · simpa [hpos] using ih hrest

/-- A member is in as many clusters as its chunk is in groups. -/
theorem Assembled.countP_members {mode : Mode} {chunks : List Chunk} {groups : List (List ℕ)}
    {clusters : List Cluster} (h : Assembled mode chunks groups clusters)
    (hseparate : Chunk.Separate chunks) (hchunks : (chunks.map (·.propertySet)).Nodup)
    {k : Chunk} {pos : ℕ} (hpos : chunks[pos]? = some k) {x : String} (hx : x ∈ k.members) :
    clusters.countP (x ∈ ·.members) = groups.countP (pos ∈ ·) := by
  have hin (group : List ℕ) : (∃ k' ∈ picked chunks group, x ∈ k'.members) ↔ pos ∈ group := by
    constructor
    · intro hpicked
      obtain ⟨k', hk', hx'⟩ := hpicked
      obtain ⟨pos', hpos', hat⟩ := mem_picked_iff.1 hk'
      obtain rfl := hseparate k' (List.mem_of_getElem? hat) k (List.mem_of_getElem? hpos) x hx' hx
      obtain rfl : pos' = pos :=
        (List.getElem?_inj (List.getElem?_eq_some_iff.1 hat).1 hchunks.of_map).1
          (hat.trans hpos.symm)
      exact hpos'
    · intro hmem
      exact ⟨k, mem_picked_iff.2 ⟨pos, hmem, hpos⟩, hx⟩
  have hmembers := h.map_perm (fun c => decide (x ∈ c.members)) (fun group => decide (pos ∈ group))
    fun group _ c hc => decide_eq_decide.2 ((hc.mem_members x).trans (hin group))
  have hcount := hmembers.countP_eq (· == true)
  simpa [List.countP_map, Function.comp_def] using hcount

end Cluster

namespace Clustering

variable {α : Type} {finder : CommunityFinder} {policy : Policy} {records : List Record}
variable {run after : Run α} {clustering : Clustering} {m : ℤ}

/-- Nobody is in more clusters than a member may be in. -/
theorem countP_members_le (hmax : policy.maxClusters = .int m) (hm : 1 ≤ m)
    (hshared : policy.minShared.below 1 = false)
    (hoids : policy.mode = .user → (records.map (·.oid)).Nodup)
    (h : ofPopulation finder policy records run = .ok (after, clustering)) (x : String) :
    (clustering.clusters.countP (x ∈ ·.members) : ℤ) ≤ m := by
  obtain ⟨kind, hchunks⟩ := Analysis.exists_chunksFor_eq policy.mode records
  rcases made_ofPopulation finder policy records run after clustering h with
    ⟨hnone, -⟩ | ⟨made, large, joined, clusters, hsteps, hmade⟩
  · rw [hnone, List.countP_nil]
    omega
  rw [hmade]
  change (clusters.countP (x ∈ ·.members) : ℤ) ≤ m
  have hassembled := hsteps.assembled
  by_cases hmember : ∃ c ∈ clusters, x ∈ c.members
  · have hkeys := nodup_propertySet_of_aggregate hchunks.symm
    have hseparate : Chunk.Separate (chunksFor policy.mode records) := by
      rw [hchunks]
      exact Chunk.separate_aggregate (Analysis.nodup_oid_analysed hoids)
    obtain ⟨c, hc, hx⟩ := hmember
    obtain ⟨group, -, hof⟩ := hassembled.exists_group hc
    obtain ⟨k, hk, hxk⟩ := (hof.mem_members x).1 hx
    obtain ⟨pos, -, hpos⟩ := Cluster.mem_picked_iff.1 hk
    rw [hassembled.countP_members hseparate hkeys hpos hxk]
    have hjoined := hsteps.joined_eq
    unfold joinedGroups at hjoined
    split at hjoined
    · have hmembers : ∀ k ∈ chunksFor policy.mode records, k.members ≠ [] := by
        rw [hchunks]
        exact fun _ => Chunk.members_ne_nil
      rw [Cluster.overlapped_eq_ok_iff hmax hmembers fun _ => hsteps.lt_large] at hjoined
      rw [hjoined.2]
      exact (Cluster.joined_extended hm hshared (fun _ => hsteps.lt_large)
        hsteps.nodup_large).capped pos
    · rw [← Except.ok.inj hjoined]
      have hone := Cluster.countP_le_one hsteps.nodup_large pos
      omega
  · rw [List.countP_eq_zero.2 fun c hc hx => hmember ⟨c, hc, of_decide_eq_true hx⟩]
    omega

/-- Under a checked session with a whole number of clusters for each member, joining fails only on a
chunk whose weight is below one, and what it gives is capped, justified and greedy. So no member is
in more clusters than that, whatever the strategy and wherever the run is stopped. -/
theorem joining_is_capped_and_greedy {session : Session} (hpolicy : session.check = .ok policy)
    (hmax : policy.maxClusters = .int m) :
    (∀ (kind : Chunk.Kind) (propertyWeights : Ledger String ℤ) (records : List Record)
        (groups : List (List ℕ)),
      (∀ group ∈ groups, ∀ pos ∈ group,
        pos < (Chunk.aggregate kind propertyWeights records).length) → groups.flatten.Nodup →
      ((∃ extended, Cluster.overlapped policy (Chunk.aggregate kind propertyWeights records) groups =
          .ok extended) ↔ ∀ k ∈ Chunk.aggregate kind propertyWeights records, 1 ≤ k.weight) ∧
      ∀ extended, Cluster.overlapped policy (Chunk.aggregate kind propertyWeights records) groups =
          .ok extended →
        Cluster.Joined policy m (Chunk.aggregate kind propertyWeights records) groups extended) ∧
    ∀ (finder : CommunityFinder) (records : List Record) (run after : Run α)
        (clustering : Clustering), (policy.mode = .user → (records.map (·.oid)).Nodup) →
      ofPopulation finder policy records run = .ok (after, clustering) →
      ∀ x, (clustering.clusters.countP (x ∈ ·.members) : ℤ) ≤ m := by
  have hshared := Session.one_le_minShared_of_check hpolicy
  have hm := Session.one_le_of_check hpolicy hmax
  refine ⟨fun kind propertyWeights records groups hlt hgroups => ?_,
    fun finder records run after clustering hoids h x =>
      countP_members_le hmax hm hshared hoids h x⟩
  have hmembers : ∀ k ∈ Chunk.aggregate kind propertyWeights records, k.members ≠ [] :=
    fun _ => Chunk.members_ne_nil
  simp only [Cluster.overlapped_eq_ok_iff hmax hmembers hlt]
  constructor
  · simp
  · intro extended hextended
    rw [hextended.2]
    exact Cluster.joined_extended hm hshared hlt hgroups

/-- Everybody may be in two clusters that they cover by half. -/
def halfCovered : Session where
  minMembers := .int 1
  allowOverlap := .bool true
  minOverlapCoverage := .float 0.5
  maxClustersPerMember := .int 2

def halfCoveredPolicy : Policy :=
  { twoOrMore with minMembers := 1, allowOverlap := true, minCoverage := .float 0.5,
                   maxClusters := 2 }

theorem check_halfCovered : halfCovered.check = .ok halfCoveredPolicy := by
  have hvalid : halfCovered.complaints = .ok [] := by decide +kernel
  unfold Session.check
  rw [hvalid]
  rfl

/-- Bob's roles are some of Ann's. -/
def nestedUsers : List Record :=
  [.single "ann" (.ofList ["dev", "ops", "qa"]), .single "bob" (.ofList ["dev", "ops"])]

theorem nested_users_join_each_other : halfCovered.check = .ok halfCoveredPolicy ∧
    halfCoveredPolicy.maxClusters = .int 2 ∧ ([[0], [1]] : List (List ℕ)).flatten.Nodup ∧
    Cluster.overlapped halfCoveredPolicy (Chunk.aggregate .users .empty nestedUsers) [[0], [1]] =
      .ok [[0, 1], [1, 0]] ∧
    Cluster.Joined halfCoveredPolicy 2 (Chunk.aggregate .users .empty nestedUsers) [[0], [1]]
      [[0, 1], [1, 0]] := by
  have hchunks : Chunk.aggregate .users .empty nestedUsers =
      [{ kind := .users, members := ["bob"], properties := ["dev", "ops"], weight := 1,
         memberWeights := [1] },
        { kind := .users, members := ["ann"], properties := ["dev", "ops", "qa"], weight := 1,
          memberWeights := [1] }] := by
    cbv
  have hnodup : ([[0], [1]] : List (List ℕ)).flatten.Nodup := by decide
  have hlt : ∀ group ∈ ([[0], [1]] : List (List ℕ)), ∀ pos ∈ group,
      pos < (Chunk.aggregate .users .empty nestedUsers).length := by
    rw [hchunks]
    decide
  have hjoined : (Cluster.overlapped halfCoveredPolicy
      (Chunk.aggregate .users .empty nestedUsers) [[0], [1]]).toOption.map id =
        some [[0, 1], [1, 0]] := by
    rw [hchunks]
    decide +kernel
  obtain ⟨_, h, rfl⟩ := exists_ok_of_toOption_map hjoined
  have hall := (joining_is_capped_and_greedy (α := Unit) check_halfCovered rfl).1 .users .empty
    nestedUsers [[0], [1]] hlt hnodup
  exact ⟨check_halfCovered, rfl, hnodup, h, hall.2 _ h⟩

/-- Two users with the same roles weigh together half as much as there are machine words. -/
def heavyPair : List Record :=
  [⟨"ann", .ofList ["dev", "ops"], 2 ^ 62, by decide⟩,
    ⟨"bob", .ofList ["dev", "ops"], 2 ^ 62, by decide⟩]

/-- The weight of a heavy chunk wraps around to a negative one, and joining fails. -/
theorem heavy_pair_cannot_join : (heavyPair.map (·.oid)).Nodup ∧
    halfCovered.check = .ok halfCoveredPolicy ∧ halfCoveredPolicy.maxClusters = .int 2 ∧
    (Chunk.aggregate .users .empty heavyPair).map (·.weight) = [-2 ^ 63] ∧
    (Cluster.overlapped halfCoveredPolicy (Chunk.aggregate .users .empty heavyPair) [[0]]).toOption =
      none := by
  refine ⟨by decide, check_halfCovered, rfl, by decide +kernel, by decide +kernel⟩

end Clustering
end RoleMining
