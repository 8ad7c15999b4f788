import RoleMining.Proofs.Analysis.Mining
import RoleMining.Proofs.Cluster.Gathering

/-!
# The members of a cluster

The members of a cluster are looked up in the directory of the records that were clustered, and each
of them is found there. Their records are those of the cluster's chunks, so the cluster has all of
their properties and counts what they weigh together, as long as no chunk weighs more than a machine
word holds.
-/
namespace RoleMining

namespace Mined

variable {records : List Record} {oids : List String} {r : Record}

theorem find?_directory_of_mem (hoids : (records.map (·.oid)).Nodup) (hr : r ∈ records) :
    (Record.directory records).find? r.oid = some r := by
  have hkeys : ((records.map fun r => (r.oid, r)).map Prod.fst).Nodup := by
    rwa [List.map_map]
  exact (Ledger.find?_ofList_eq_some_iff hkeys).2 (List.mem_map.2 ⟨r, hr, rfl⟩)

theorem mem_membersOf_iff (hoids : (records.map (·.oid)).Nodup) :
    r ∈ membersOf (Record.directory records) oids ↔ r ∈ records ∧ r.oid ∈ oids := by
  refine ⟨mem_membersOf, fun h => ?_⟩
  exact List.mem_filterMap.2 ⟨r.oid, h.2, find?_directory_of_mem hoids h.1⟩

/-- When all identities are known, all of them are found. -/
theorem oid_membersOf (hoids : (records.map (·.oid)).Nodup)
    (hknown : ∀ oid ∈ oids, ∃ r ∈ records, r.oid = oid) :
    (membersOf (Record.directory records) oids).map (·.oid) = oids := by
  unfold membersOf
  induction oids with
  | nil => rfl
  | cons oid oids ih =>
    obtain ⟨r, hr, rfl⟩ := hknown oid List.mem_cons_self
    rw [List.filterMap_cons_some (find?_directory_of_mem hoids hr), List.map_cons,
      ih fun oid hoid => hknown oid (List.mem_cons_of_mem _ hoid)]

end Mined

/-- The records of a cluster's members, as the directory has them. -/
def Cluster.memberRecords (c : Cluster) (records : List Record) : List Record :=
  Mined.membersOf (Record.directory records) c.members.toList

namespace Cluster.Gathers

variable {kind : Chunk.Kind} {mode : Mode} {records : List Record} {c : Cluster} {cs : List Chunk}
variable {r : Record}
variable (hoids : (records.map (·.oid)).Nodup)
variable (h : Gathers mode (Chunk.aggregate kind .empty records) c cs)
include hoids h

theorem mem_memberRecords_iff : r ∈ c.memberRecords records ↔
    ∃ k ∈ cs, r ∈ Chunk.groupOf records k.propertySet := by
  rw [Cluster.memberRecords, Mined.mem_membersOf_iff hoids]
  change r ∈ records ∧ r.oid ∈ c.members ↔ _
  rw [h.mem_members]
  constructor
  · intro hmember
    obtain ⟨hr, k, hk, hrk⟩ := hmember
    obtain ⟨r', hr', hoid⟩ :=
      (Chunk.mem_members_iff_of_mem_aggregate (h.mem_chunks k hk)).1 hrk
    obtain rfl := Record.eq_of_oid_eq hoids (Chunk.mem_groupOf.1 hr').1 hr hoid
    exact ⟨k, hk, hr'⟩
  · intro hgroup
    obtain ⟨k, hk, hrk⟩ := hgroup
    exact ⟨(Chunk.mem_groupOf.1 hrk).1, k, hk,
      (Chunk.mem_members_iff_of_mem_aggregate (h.mem_chunks k hk)).2 ⟨r, hrk, rfl⟩⟩

/-- Every member of a cluster has a record. -/
theorem oid_memberRecords : (c.memberRecords records).map (·.oid) = c.members.toList := by
  refine Mined.oid_membersOf hoids fun oid hoid => ?_
  obtain ⟨k, hk, hoid⟩ := (h.mem_members oid).1 hoid
  obtain ⟨r, hr, he⟩ := (Chunk.mem_members_iff_of_mem_aggregate (h.mem_chunks k hk)).1 hoid
  exact ⟨r, (Chunk.mem_groupOf.1 hr).1, he⟩

/-- A cluster has all the properties of its members. -/
theorem properties_subset (hr : r ∈ c.memberRecords records) : r.properties ⊆ c.properties := by
  obtain ⟨k, hk, hgroup⟩ := (h.mem_memberRecords_iff hoids).1 hr
  rw [(Chunk.mem_groupOf.1 hgroup).2]
  intro x hx
  exact (h.mem_properties x).2 ⟨k, hk, IdSet.mem_ofList.1 hx⟩

theorem memberRecords_perm : (c.memberRecords records).Perm
    (cs.flatMap fun k => Chunk.groupOf records k.propertySet) := by
  have hnodup : (c.memberRecords records).Nodup := by
    apply List.Nodup.of_map (·.oid)
    rw [h.oid_memberRecords hoids]
    exact c.members.nodup_toList
  refine (List.perm_ext_iff_of_nodup hnodup
    (Chunk.nodup_flatMap_groupOf hoids h.nodup)).2 fun r => ?_
  rw [h.mem_memberRecords_iff hoids, List.mem_flatMap]

/-- A cluster counts what its members weigh together, if the members of no chunk weigh too much. -/
theorem membersCount_eq_sum (hfits : ∀ r ∈ c.memberRecords records,
      ((Chunk.groupOf records r.properties).map (·.weight)).sum < 2 ^ 63) :
    c.statistics.membersCount = ((c.memberRecords records).map (·.weight)).sum := by
  rw [h.membersCount_eq, ((h.memberRecords_perm hoids).map _).sum_eq]
  refine Chunk.sum_weight_of_forall_mem h.mem_chunks fun k hk => ?_
  have hmember := h.mem_chunks k hk
  obtain ⟨x, hx⟩ := Chunk.members_ne_nil_of_mem_aggregate hmember
  obtain ⟨r, hr, -⟩ := (Chunk.mem_members_iff_of_mem_aggregate hmember).1 hx
  have hlt := hfits r ((h.mem_memberRecords_iff hoids).2 ⟨k, hk, hr⟩)
  rwa [(Chunk.mem_groupOf.1 hr).2] at hlt

end Cluster.Gathers

end RoleMining
