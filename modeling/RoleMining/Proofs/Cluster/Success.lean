import RoleMining.Proofs.Cluster.Joining
import RoleMining.Proofs.Order.Frequencies

/-!
# Clustering succeeds

A chunk of records that together fit a machine word weighs at least one, so a table can be made of
the chunks. The positions in groups are those of chunks at every step, also after chunks have joined
further groups. So under a checked session every step of a clustering has a result; only the search
for communities has a condition of its own, on the seed.
-/
namespace RoleMining

namespace Chunk

variable {kind : Kind} {propertyWeights : Ledger String ℤ} {records : List Record} {c : Chunk}

/-- A chunk weighs at least one, unless its records weigh too much for a word. -/
theorem one_le_weight_of_mem_aggregate (_hoids : (records.map (·.oid)).Nodup)
    (hfits : weightOf records < 2 ^ 63) (hc : c ∈ aggregate kind propertyWeights records) :
    1 ≤ c.weight :=
  one_le_weight hc ((weightOf_le_of_sublist List.filter_sublist).trans_lt hfits)

end Chunk

theorem Cluster.exists_assemble {chunks : List Chunk} {groups : List (List ℕ)} (mode : Mode)
    (similarities : Similarities) (hlt : ∀ group ∈ groups, ∀ pos ∈ group, pos < chunks.length) :
    ∃ clusters, assemble mode chunks similarities groups = .ok clusters := by
  have hdraft (group : List ℕ) (hgroup : group ∈ groups) :
      ∃ made, draft chunks similarities group = .ok made := by
    have hat : chunksAt chunks (tidy group) = .ok (picked chunks (tidy group)) :=
      chunksAt_eq_ok_iff.2 ⟨fun pos hpos => hlt group hgroup pos (mem_tidy.1 hpos), rfl⟩
    exact ⟨_, bind_eq_ok_iff.2 ⟨_, hat, rfl⟩⟩
  obtain ⟨drafts, hdrafts⟩ := exists_mapM_eq_ok hdraft
  exact ⟨_, bind_eq_ok_iff.2 ⟨drafts, hdrafts, rfl⟩⟩

theorem Partition.exists_ofGraph {policy : Policy}
    (hseed : Community.checkSeed policy.seed = .ok ()) (finder : CommunityFinder)
    (chunks : List Chunk) (g : Graph) :
    ∃ made, ofGraph finder policy chunks g = .ok made := by
  unfold ofGraph
  dsimp only
  split
  · exact ⟨_, rfl⟩
  · rw [hseed]
    exact ⟨_, rfl⟩

namespace Clustering

variable {α : Type} {session : Session} {policy : Policy} {chunks : List Chunk}
variable {records : List Record} {m : ℤ}

/-- The search for communities accepts the seed, if there is one. -/
def SeedAccepted (policy : Policy) : Prop :=
  policy.strategy = .communities → Community.checkSeed policy.seed = .ok ()

/-- A partition is clustered when its large groups can be joined. -/
theorem succeeds_finish {made : Partition} (hmade : Divides made.groups chunks.length)
    (hjoined : ∃ extended, joinedGroups policy chunks
        (made.groups.filter (Cluster.isLarge policy chunks)) = .ok extended ∧
      ∀ group ∈ extended, ∀ pos ∈ group, pos < chunks.length) :
    Succeeds (finish policy chunks made : Run α → _) := by
  have hlarge : Cluster.largeGroups policy chunks made.groups =
      .ok (made.groups.filter (Cluster.isLarge policy chunks)) :=
    Cluster.largeGroups_eq fun _ => hmade.lt
  obtain ⟨extended, hextended, hlt⟩ := hjoined
  rw [funext (finish_eq policy chunks made), hlarge]
  refine .gate _ _ (.afterComputing ⟨extended, hextended⟩ fun groups hgroups => ?_)
  obtain rfl := Except.ok.inj (hextended.symm.trans hgroups)
  exact .afterComputing (Cluster.exists_assemble policy.mode made.similarities hlt)
    fun clusters _ run => ⟨_, _, rfl⟩

section Steps

variable (hpolicy : session.check = .ok policy) (hmax : policy.maxClusters = .int m)
variable (hmembers : ∀ c ∈ chunks, c.members ≠ []) (hweights : ∀ c ∈ chunks, 1 ≤ c.weight)
include hpolicy hmax hmembers hweights

theorem exists_joined {groups : List (List ℕ)} (hgroups : groups.flatten.Nodup)
    (hlt : ∀ group ∈ groups, ∀ pos ∈ group, pos < chunks.length) :
    ∃ extended, joinedGroups policy chunks groups = .ok extended ∧
      ∀ group ∈ extended, ∀ pos ∈ group, pos < chunks.length := by
  unfold joinedGroups
  split
  · have hjoined := Cluster.joined_extended (Session.one_le_of_check hpolicy hmax)
      (Session.one_le_minShared_of_check hpolicy) hlt hgroups
    exact ⟨_, (Cluster.overlapped_eq_ok_iff hmax hmembers hlt).2 ⟨hweights, rfl⟩, hjoined.lt⟩
  · exact ⟨groups, rfl, hlt⟩

theorem succeeds_continued_divide (hseed : SeedAccepted policy) (finder : CommunityFinder) :
    Succeeds fun run : Run α => divide finder policy chunks run >>= continued policy chunks := by
  have hfinish {made : Partition} (hmade : partitionOf finder policy chunks = .ok made) :
      Succeeds (finish policy chunks made : Run α → _) := by
    have hdivides := divides_partitionOf hmade
    have hsub : (made.groups.filter (Cluster.isLarge policy chunks)).Sublist made.groups :=
      List.filter_sublist
    exact succeeds_finish hdivides (exists_joined hpolicy hmax hmembers hweights
      (hdivides.nodup.sublist hsub.flatten) fun group hgroup => hdivides.lt (hsub.mem hgroup))
  cases hstrategy : policy.strategy with
  | communities =>
    obtain ⟨rows, hrows⟩ := (Chunk.exists_expand_iff hmembers).2 hweights
    have hgraph : ∃ g, Partition.graphOf policy chunks = .ok g :=
      ⟨_, bind_eq_ok_iff.2 ⟨rows, hrows, rfl⟩⟩
    simp only [continued_divide_of_communities finder policy chunks hstrategy]
    refine .afterComputing hgraph fun g hg => .gate _ _ ?_
    refine .afterComputing (Partition.exists_ofGraph (hseed hstrategy) finder chunks g) ?_
    intro made hmade
    refine .gate _ _ (hfinish ?_)
    rw [partitionOf, hstrategy]
    exact bind_eq_ok_iff.2 ⟨g, hg, hmade⟩
  | exact =>
    simp only [continued_divide_of_exact finder policy chunks hstrategy]
    refine .gate _ _ (.gate _ _ (hfinish ?_))
    rw [partitionOf, hstrategy]

end Steps

/-- A population whose clustered records fit a machine word together is clustered on any run. -/
theorem succeeds_ofPopulation (hpolicy : session.check = .ok policy)
    (hmax : policy.maxClusters = .int m) (hseed : SeedAccepted policy)
    (hoids : policy.mode = .user → (records.map (·.oid)).Nodup)
    (hfits : weightOf (Analysis.analysed policy.mode records) < 2 ^ 63) (finder : CommunityFinder) :
    Succeeds (ofPopulation finder policy records : Run α → _) := by
  obtain ⟨kind, hchunks⟩ := Analysis.exists_chunksFor_eq policy.mode records
  rw [funext (ofPopulation_eq finder policy records)]
  refine .gate _ _ ?_
  split
  next => exact .gate _ _ (.pure _)
  next =>
    rw [hchunks]
    exact succeeds_continued_divide hpolicy hmax (fun _ => Chunk.members_ne_nil)
      (fun _ => Chunk.one_le_weight_of_mem_aggregate (Analysis.nodup_oid_analysed hoids) hfits)
      hseed finder

end Clustering
end RoleMining
