import Mathlib.Data.List.Permutation
import RoleMining.Proofs.Cluster.Gathering
import RoleMining.Proofs.Order.Records

/-!
# Chunks are a partition of the records

Every record goes into one chunk, that of its property set, and is found there again: by its
identity among the members and by its weight in the weight of that member. An identity with several
records of one property set is one member with all of their weight; with records of different
property sets it is a member of several chunks. Chunks stand in one order, whatever that of the
records.
-/
namespace RoleMining.Chunk

variable {kind : Kind} {propertyWeights : Ledger String ℤ} {records : List Record} {c : Chunk}
variable {key : List String} {x : String}

/-- What a chunk says of the records with its properties: who they are, what each of them weighs,
and what they weigh together. -/
structure Summarizes (propertyWeights : Ledger String ℤ) (records : List Record) (c : Chunk) :
    Prop where
  sorted : c.members.Pairwise (· < ·)
  mem_members : ∀ oid, oid ∈ c.members ↔
    ∃ r ∈ records, r.oid = oid ∧ r.properties.toList = c.properties
  memberWeights_eq : c.memberWeights = c.members.map fun oid =>
    weightOf (records.filter fun r => r.oid = oid ∧ r.properties.toList = c.properties)
  weight_eq : c.weight = c.memberWeights.sum
  /-- Weights of properties stand beside the properties when there are any. -/
  propertyWeights_eq : c.propertyWeights =
    if propertyWeights.size = 0 then [] else c.properties.map (weightIn propertyWeights.find?)

theorem toList_propertySet (hc : c ∈ aggregate kind propertyWeights records) :
    c.propertySet.toList = c.properties := by
  obtain ⟨r, -, rfl⟩ := mem_aggregate_iff.1 hc
  rw [propertySet_ofGroup]
  rfl

theorem mem_properties_iff (hc : c ∈ aggregate kind propertyWeights records) {r : Record} :
    r.properties.toList = c.properties ↔ r.properties = c.propertySet := by
  rw [← toList_propertySet hc, IdSet.toList_inj]

/-- A group of records, told by the key of its chunk. -/
theorem groupOf_eq_filter (hc : c ∈ aggregate kind propertyWeights records) :
    groupOf records c.propertySet = records.filter fun r => r.properties.toList = c.properties :=
  List.filter_congr fun r _ => by simp only [mem_properties_iff hc]

theorem nodup_properties_aggregate (kind : Kind) (propertyWeights : Ledger String ℤ)
    (records : List Record) :
    ((aggregate kind propertyWeights records).map (·.properties)).Nodup := by
  have hsets := nodup_propertySet_aggregate kind propertyWeights records
  have hmap : (aggregate kind propertyWeights records).map (·.propertySet) =
      ((aggregate kind propertyWeights records).map (·.properties)).map IdSet.ofList := by
    rw [List.map_map]
    rfl
  rw [hmap] at hsets
  exact hsets.of_map

theorem mem_map_properties_aggregate :
    key ∈ (aggregate kind propertyWeights records).map (·.properties) ↔
      ∃ r ∈ records, r.properties.toList = key := by
  simp only [List.mem_map, mem_aggregate_iff]
  constructor
  · intro h
    obtain ⟨c, ⟨r, hr, rfl⟩, rfl⟩ := h
    exact ⟨r, hr, rfl⟩
  · intro h
    obtain ⟨r, hr, rfl⟩ := h
    exact ⟨_, ⟨r, hr, rfl⟩, rfl⟩

/-- Different chunks have different keys, so none of them ranks like another. -/
theorem pairwise_aggregate (kind : Kind) (propertyWeights : Ledger String ℤ)
    (records : List Record) : (aggregate kind propertyWeights records).Pairwise fun a b =>
      b.weight < a.weight ∨ (a.weight = b.weight ∧ a.properties < b.properties) := by
  have hsorted : (aggregate kind propertyWeights records).Pairwise fun a b => ordered a b = true :=
    List.pairwise_mergeSort ordered_trans ordered_total _
  have hkeys := List.pairwise_map.1 (nodup_properties_aggregate kind propertyWeights records)
  apply (hsorted.and hkeys).imp
  intro a b hab
  have hlt : a.rank < b.rank :=
    lt_of_le_of_ne (ordered_iff.1 hab.1) fun he => hab.2 (properties_eq_of_rank_eq he)
  simpa [rank, Prod.Lex.toLex_lt_toLex] using hlt

theorem summarizes_of_mem_aggregate (hfits : weightOf records < 2 ^ 63)
    (hc : c ∈ aggregate kind propertyWeights records) : Summarizes propertyWeights records c := by
  have hgroup : ((groupOf records c.propertySet).map (·.weight)).sum < 2 ^ 63 :=
    (weightOf_le_of_sublist List.filter_sublist).trans_lt hfits
  refine {
    sorted := ?sorted
    mem_members := fun oid => ?mem
    memberWeights_eq := ?weights
    weight_eq := weight_eq_sum_memberWeights hc hgroup
    propertyWeights_eq := ?properties }
  case sorted =>
    obtain ⟨r, -, rfl⟩ := mem_aggregate_iff.1 hc
    exact IdSet.sorted _
  case mem =>
    rw [mem_members_iff_of_mem_aggregate hc]
    simp only [mem_groupOf, mem_properties_iff hc]
    exact ⟨fun ⟨r, ⟨hr, hkey⟩, hoid⟩ => ⟨r, hr, hoid, hkey⟩,
      fun ⟨r, hr, hoid, hkey⟩ => ⟨r, ⟨hr, hkey⟩, hoid⟩⟩
  case weights =>
    rw [memberWeights_of_mem_aggregate hc hgroup, groupOf_eq_filter hc]
    simp only [List.filter_filter, Bool.decide_and]
    rfl
  case properties =>
    obtain ⟨r, -, rfl⟩ := mem_aggregate_iff.1 hc
    exact propertyWeights_ofGroup

/-- Aggregation loses nothing. There is one chunk for each property set that occurs, and it
summarizes the records with that property set; all chunks weigh together what the records weigh; and
chunks come in strict order, the heavier ones first and those of one weight by their key, which the
order of the records does not change. -/
theorem aggregation_is_lossless (kind : Kind) (propertyWeights : Ledger String ℤ)
    {records : List Record} (hfits : weightOf records < 2 ^ 63) :
    ((aggregate kind propertyWeights records).map (·.properties)).Nodup ∧
    (∀ key, key ∈ (aggregate kind propertyWeights records).map (·.properties) ↔
      ∃ r ∈ records, r.properties.toList = key) ∧
    (∀ c ∈ aggregate kind propertyWeights records, Summarizes propertyWeights records c) ∧
    ((aggregate kind propertyWeights records).map (·.weight)).sum = weightOf records ∧
    (aggregate kind propertyWeights records).Pairwise (fun a b =>
      b.weight < a.weight ∨ (a.weight = b.weight ∧ a.properties < b.properties)) ∧
    ∀ records', records.Perm records' →
      aggregate kind propertyWeights records' = aggregate kind propertyWeights records := by
  have hgroups : ∀ r ∈ records, ((groupOf records r.properties).map (·.weight)).sum < 2 ^ 63 :=
    fun _ _ => (weightOf_le_of_sublist List.filter_sublist).trans_lt hfits
  exact ⟨nodup_properties_aggregate kind propertyWeights records,
    fun _ => mem_map_properties_aggregate, fun _ => summarizes_of_mem_aggregate hfits,
    sum_weight_aggregate kind propertyWeights hgroups,
    pairwise_aggregate kind propertyWeights records,
    fun _ h => (aggregate_eq_of_perm h kind propertyWeights).symm⟩

/-- Ann has two records with the same properties and one with others; Bob holds nothing. -/
def reappearing : List Record :=
  [⟨"ann", .ofList ["dev", "ops"], 2, by decide⟩, .single "bob" .empty,
    .single "ann" (.ofList ["dev"]), .single "ann" (.ofList ["ops", "dev"])]

theorem ann_is_in_two_chunks : weightOf reappearing < 2 ^ 63 ∧
    aggregate .users (.ofList [("dev", 7)]) reappearing =
      [{ kind := .users, members := ["ann"], properties := ["dev", "ops"], weight := 3,
         memberWeights := [3], propertyWeights := [7, 1] },
        { kind := .users, members := ["bob"], properties := [], weight := 1, memberWeights := [1] },
        { kind := .users, members := ["ann"], properties := ["dev"], weight := 1,
          memberWeights := [1], propertyWeights := [7] }] ∧
    ((aggregate .users (.ofList [("dev", 7)]) reappearing).map (·.weight)).sum = 5 ∧
    aggregate .users (.ofList [("dev", 7)]) reappearing.reverse =
      aggregate .users (.ofList [("dev", 7)]) reappearing := by
  have hfits : weightOf reappearing < 2 ^ 63 := by decide
  obtain ⟨-, -, -, hsum, -, horder⟩ :=
    aggregation_is_lossless .users (.ofList [("dev", 7)]) hfits
  have hweight : weightOf reappearing = 5 := by decide
  exact ⟨hfits, by cbv, hsum.trans hweight, horder _ (List.reverse_perm _).symm⟩

end RoleMining.Chunk
