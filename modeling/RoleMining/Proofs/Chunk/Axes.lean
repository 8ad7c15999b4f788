import RoleMining.Proofs.Cluster.Accounting

/-!
# Both axes hold the same assignments

Who holds which property can be read off the records, off the chunks of users and off the chunks of
roles. Inverting turns the relation around and grouping keeps it, so no pair is added or lost, also
when an identity has several records. Inverting twice gives back what was held; with the weights put
back and distinct identities these are the records themselves, except those that hold nothing.
-/
namespace RoleMining

variable {records : List Record} {r : Record} {x y : String}

namespace Chunk

/-- A member of a chunk holds its properties by some record, and every record is behind a chunk. -/
theorem exists_mem_aggregate_iff (kind : Kind) (propertyWeights : Ledger String ℤ) :
    (∃ c ∈ aggregate kind propertyWeights records, x ∈ c.members ∧ y ∈ c.properties) ↔
      Record.Holds records x y := by
  constructor
  · intro h
    obtain ⟨c, hc, hx, hy⟩ := h
    obtain ⟨r, -, rfl⟩ := mem_aggregate_iff.1 hc
    obtain ⟨r', hr', hkey, hoid⟩ := mem_members_ofGroup.1 hx
    exact ⟨r', hr', hoid, hkey ▸ hy⟩
  · intro h
    obtain ⟨r, hr, hoid, hy⟩ := h
    exact ⟨_, mem_aggregate_iff.2 ⟨r, hr, rfl⟩, mem_members_ofGroup.2 ⟨r, hr, rfl, hoid⟩, hy⟩

/-- A distinct identity is a member of one chunk. -/
theorem countP_members_aggregate (kind : Kind) (propertyWeights : Ledger String ℤ)
    (hoids : (records.map (·.oid)).Nodup) (hr : r ∈ records) :
    (aggregate kind propertyWeights records).countP (r.oid ∈ ·.members) = 1 := by
  obtain ⟨c, hc, hx⟩ : ∃ c ∈ aggregate kind propertyWeights records, r.oid ∈ c.members :=
    ⟨_, mem_aggregate_iff.2 ⟨r, hr, rfl⟩, mem_members_ofGroup.2 ⟨r, hr, rfl, rfl⟩⟩
  have hnodup : (aggregate kind propertyWeights records).Nodup :=
    (nodup_propertySet_aggregate kind propertyWeights records).of_map
  have hcount : (aggregate kind propertyWeights records).countP (r.oid ∈ ·.members) =
      (aggregate kind propertyWeights records).count c := by
    refine List.countP_congr fun d hd => ?_
    rw [decide_eq_true_eq, beq_iff_eq]
    constructor
    · exact fun hxd => separate_aggregate hoids d hd c hc r.oid hxd hx
    · rintro rfl
      exact hx
  rw [hcount, List.count_eq_one_of_mem hnodup hc]

end Chunk

/-! ### Inverting twice -/

theorem IdSet.ne_empty_iff {s : IdSet} : s ≠ .empty ↔ ∃ x, x ∈ s := by
  constructor
  · intro hne
    by_contra hnone
    exact hne (ext_mem fun x => iff_of_false (fun hx => hnone ⟨x, hx⟩) not_mem_empty)
  · rintro ⟨x, hx⟩ rfl
    exact not_mem_empty hx

theorem mem_heldProperties_iff_holds :
    x ∈ heldProperties records ↔ ∃ oid, Record.Holds records oid x := by
  rw [mem_heldProperties]
  constructor
  · intro h
    obtain ⟨r, hr, hx⟩ := h
    exact ⟨r.oid, r, hr, rfl, hx⟩
  · intro h
    obtain ⟨oid, r, hr, -, hx⟩ := h
    exact ⟨r, hr, hx⟩

/-- The inverted records hold the identities that hold something. -/
theorem mem_heldProperties_invert :
    x ∈ heldProperties (invert records) ↔ ∃ property, Record.Holds records x property := by
  simp only [mem_heldProperties_iff_holds, holds_invert_iff]

section Distinct

variable (hoids : (records.map (·.oid)).Nodup)
include hoids

theorem holders_invert (hr : r ∈ records) : holders (invert records) r.oid = r.properties :=
  IdSet.ext_mem fun x => by rw [mem_holders_iff, holds_invert_iff, Record.holds_iff hoids hr]

/-- Sorted by identity, the records that hold something are in the order of an inverted list. -/
theorem map_oid_mergeSort :
    ((records.filter (·.properties ≠ .empty)).mergeSort fun a b => a.oid ≤ b.oid).map (·.oid) =
      (heldProperties (invert records)).toList := by
  have hsorted : ((records.filter (·.properties ≠ .empty)).mergeSort
      fun a b => a.oid ≤ b.oid).Pairwise fun a b => a.oid ≤ b.oid := by
    have htrans (a b c : Record) (hab : decide (a.oid ≤ b.oid) = true)
        (hbc : decide (b.oid ≤ c.oid) = true) : decide (a.oid ≤ c.oid) = true :=
      decide_eq_true ((of_decide_eq_true hab).trans (of_decide_eq_true hbc))
    have htotal (a b : Record) : (decide (a.oid ≤ b.oid) || decide (b.oid ≤ a.oid)) = true := by
      simpa using le_total a.oid b.oid
    exact (List.pairwise_mergeSort htrans htotal _).imp of_decide_eq_true
  have hdistinct : (((records.filter (·.properties ≠ .empty)).mergeSort
      fun a b => a.oid ≤ b.oid).map (·.oid)).Nodup := by
    rw [((List.mergeSort_perm _ _).map _).nodup_iff]
    exact hoids.sublist (List.filter_sublist.map _)
  refine eq_of_pairwise_of_mem_iff (fun _ _ => lt_asymm) ?_ (heldProperties _).sorted fun x => ?_
  · have hle := List.pairwise_map.2 hsorted
    exact (hle.and hdistinct).imp fun ⟨h, hne⟩ => lt_of_le_of_ne h hne
  · rw [← IdSet.mem_def, mem_heldProperties_invert]
    simp only [List.mem_map, List.mem_mergeSort, List.mem_filter, decide_eq_true_eq,
      IdSet.ne_empty_iff]
    constructor
    · intro h
      obtain ⟨r, ⟨hr, property, hproperty⟩, rfl⟩ := h
      exact ⟨property, r, hr, rfl, hproperty⟩
    · intro h
      obtain ⟨property, r, hr, rfl, hproperty⟩ := h
      exact ⟨r, ⟨hr, property, hproperty⟩, rfl⟩

/-- Each inverted role gives its holders back, under their own weights. -/
theorem invertWeighted_invert : invertWeighted (weightMap records) (invert records) =
    .ok ((records.filter (·.properties ≠ .empty)).mergeSort fun a b => a.oid ≤ b.oid) := by
  unfold invertWeighted
  rw [← map_oid_mergeSort hoids, mapM_eq_ok_iff, List.forall₂_map_left_iff, List.forall₂_same]
  intro r hr
  have hmem : r ∈ records := (List.mem_filter.1 (List.mem_mergeSort.1 hr)).1
  rw [holders_invert hoids hmem, weightIn_weightMap hoids hmem, Record.make_eq_ok_iff]
  exact ⟨rfl, rfl, rfl⟩

end Distinct

namespace Chunk

/-- The chunks of either axis have exactly the assignments of the records, and a role that is held
is a member of one chunk of roles. For distinct identities the records that hold something come back
from two inversions, with their weights and sorted by identity. -/
theorem chunkings_keep_assignments (records : List Record) :
    (∀ oid property, (∃ c ∈ ofUsers records, oid ∈ c.members ∧ property ∈ c.properties) ↔
      Record.Holds records oid property) ∧
    (∀ oid property, (∃ c ∈ ofRoles records, property ∈ c.members ∧ oid ∈ c.properties) ↔
      Record.Holds records oid property) ∧
    (∀ oid property, Record.Holds records oid property →
      (ofRoles records).countP (property ∈ ·.members) = 1) ∧
    ((records.map (·.oid)).Nodup → invertWeighted (weightMap records) (invert records) =
      .ok ((records.filter (·.properties ≠ .empty)).mergeSort fun a b => a.oid ≤ b.oid)) := by
  refine ⟨fun oid property => exists_mem_aggregate_iff _ _, fun oid property => ?_,
    fun oid property hholds => ?_, invertWeighted_invert⟩
  · exact (exists_mem_aggregate_iff _ _).trans holds_invert_iff
  · obtain ⟨role, hrole, rfl, -⟩ := holds_invert_iff.2 hholds
    exact countP_members_aggregate _ _ (nodup_oid_invert records) hrole

/-- Bob holds nothing, and Ann comes after Cid. -/
def unsorted : List Record :=
  [⟨"cid", .ofList ["dev", "ops"], 5, by decide⟩, .single "bob" .empty,
    ⟨"ann", .ofList ["ops"], 4, by decide⟩]

theorem unsorted_comes_back_sorted : (unsorted.map (·.oid)).Nodup ∧
    Record.Holds unsorted "cid" "ops" ∧
    (ofRoles unsorted).countP ("ops" ∈ ·.members) = 1 ∧
    invertWeighted (weightMap unsorted) (invert unsorted) =
      .ok [⟨"ann", .ofList ["ops"], 4, by decide⟩,
        ⟨"cid", .ofList ["dev", "ops"], 5, by decide⟩] := by
  have hoids : (unsorted.map (·.oid)).Nodup := by decide
  have hholds : Record.Holds unsorted "cid" "ops" :=
    ⟨⟨"cid", .ofList ["dev", "ops"], 5, by decide⟩, List.mem_cons_self, rfl, by decide⟩
  obtain ⟨-, -, hone, htwice⟩ := chunkings_keep_assignments unsorted
  refine ⟨hoids, hholds, hone "cid" "ops" hholds, (htwice hoids).trans (congrArg Except.ok ?_)⟩
  cbv

end Chunk
end RoleMining
