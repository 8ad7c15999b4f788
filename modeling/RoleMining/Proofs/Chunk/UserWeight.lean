import RoleMining.Population.Payload
import RoleMining.Proofs.Chunk.Axes

/-!
# What a user weighs on either axis

Among the chunks of users a user weighs what all of its records weigh together: each of its chunks
has the records of one property set. Among the chunks of roles it weighs what its last record
weighs. Records are positive, so the two agree for a user with one record and for no other.
-/
namespace RoleMining

variable {records : List Record} {r : Record} {x : String}

/-- The records of an identity. -/
def recordsOf (records : List Record) (x : String) : List Record :=
  records.filter fun r => r.oid = x

/-- A later record of an identity has the last word on its weight. -/
theorem find?_weightMap (records : List Record) (x : String) :
    (weightMap records).find? x = (recordsOf records x).getLast?.map (·.weight) := by
  rw [weightMap, Ledger.find?_ofList, recordsOf]
  induction records using List.reverseRecOn with
  | nil => rfl
  | append_singleton records r ih =>
    rw [List.map_append, List.reverse_append, List.filter_append]
    by_cases hr : r.oid = x
    · simp [valueAt, hr]
    · simpa [valueAt, hr] using ih

theorem recordsOf_ne_nil_iff : recordsOf records x ≠ [] ↔ ∃ r ∈ records, r.oid = x := by
  simp [recordsOf, List.filter_eq_nil_iff]

namespace Chunk

variable {kind : Kind} {propertyWeights : Ledger String ℤ} {c : Chunk}

/-- What an identity weighs in all chunks that it is a member of. -/
def memberWeight (chunks : List Chunk) (x : String) : ℤ :=
  (chunks.map fun c => (c.memberWeightMap.find? x).getD 0).sum

theorem Width.sum_nil (width : Width) : width.sum [] = 0 := by
  cases width <;> rfl

/-- A chunk weighs an identity by the records that have the chunk's property set. -/
theorem find?_memberWeightMap_ofGroup (width : Width) (key : IdSet) (x : String) :
    ((ofGroup kind width propertyWeights records key).memberWeightMap.find? x).getD 0 =
      width.sum (((recordsOf records x).filter (·.properties = key)).map (·.weight)) := by
  by_cases hx : x ∈ (ofGroup kind width propertyWeights records key).members
  · rw [memberWeightMap, memberWeights_ofGroup, find?_weightsBeside_map hx, Option.getD_some,
      recordsOf, List.filter_comm]
  · have hnone : (recordsOf records x).filter (·.properties = key) = [] := by
      refine List.filter_eq_nil_iff.2 fun r hr hkey => hx (mem_members_ofGroup.2 ?_)
      obtain ⟨hmem, hoid⟩ := List.mem_filter.1 hr
      exact ⟨r, hmem, of_decide_eq_true hkey, of_decide_eq_true hoid⟩
    have hunknown : (ofGroup kind width propertyWeights records key).memberWeightMap.find? x =
        none := Option.eq_none_iff_forall_ne_some.2 fun _ h => hx (mem_of_find?_weightsBeside h)
    rw [hunknown, hnone]
    exact (Width.sum_nil width).symm

/-- Where nothing wraps around, the chunks weigh an identity as its records do. -/
theorem memberWeight_aggregate
    (hsum : ∀ key, (Width.holding (records.map (·.weight))).sum
      (((recordsOf records x).filter (·.properties = key)).map (·.weight)) =
        weightOf ((recordsOf records x).filter (·.properties = key))) :
    memberWeight (aggregate kind propertyWeights records) x = weightOf (recordsOf records x) := by
  have hcovered : ∀ r ∈ recordsOf records x,
      r.properties ∈ (records.map (·.properties)).eraseDups := fun r hr =>
    List.mem_eraseDups.2 (List.mem_map_of_mem (List.mem_filter.1 hr).1)
  unfold memberWeight aggregate
  rw [((List.mergeSort_perm _ _).map _).sum_eq, List.map_map]
  simp only [Function.comp_def, find?_memberWeightMap_ofGroup, hsum]
  exact sum_groups (nodup_eraseDups _) hcovered

theorem memberWeight_aggregate_of_lt (hfits : weightOf (recordsOf records x) < 2 ^ 63) :
    memberWeight (aggregate kind propertyWeights records) x = weightOf (recordsOf records x) :=
  memberWeight_aggregate fun _ => Width.sum_of_lt (weightOf_nonneg _)
    ((weightOf_le_of_sublist List.filter_sublist).trans_lt hfits)

/-- The weight of one record fits the words of all, so a user with one record is safe. -/
theorem memberWeight_aggregate_of_singleton (hsingle : recordsOf records x = [r]) :
    memberWeight (aggregate kind propertyWeights records) x = r.weight := by
  have hr : r ∈ records := by
    have hmem : r ∈ recordsOf records x := hsingle ▸ List.mem_singleton_self r
    exact (List.mem_filter.1 hmem).1
  rw [memberWeight_aggregate, hsingle, weightOf, List.map_singleton, List.sum_singleton]
  intro key
  rw [hsingle]
  by_cases hkey : r.properties = key
  · rw [List.filter_singleton, decide_eq_true hkey, cond_true, List.map_singleton,
      Width.sum_singleton (List.mem_map_of_mem hr) (le_trans (by decide) r.positive), weightOf,
      List.map_singleton, List.sum_singleton]
  · rw [List.filter_singleton, decide_eq_false hkey, cond_false]
    exact Width.sum_nil _

/-- Of several records the last weighs less than all. -/
theorem weight_getLast_lt {records : List Record} (hlast : records.getLast? = some r)
    (hlength : records.length ≠ 1) : r.weight < weightOf records := by
  obtain ⟨before, rfl⟩ := List.getLast?_eq_some_iff.1 hlast
  have hbefore : before ≠ [] := by
    rintro rfl
    exact hlength rfl
  have hpos := weightOf_pos hbefore
  rw [weightOf] at hpos ⊢
  rw [List.map_append, List.sum_append, List.map_singleton, List.sum_singleton]
  omega

/-- A user weighs the same on both axes if it has one record, and otherwise does not. Every role
chunk of a user has the weight of the user's last record. The chunks of users weigh the user by its
record if it has one only; if its records weigh less than 2 ^ 63 together, then they weigh it by all
of them, which is more than the last one weighs as soon as there are two. -/
theorem user_weighs_alike_iff_one_record {records : List Record} {x : String}
    (hholds : ∃ property, Record.Holds records x property) :
    (∃ c ∈ ofRoles records, x ∈ c.properties) ∧
    ∀ c ∈ ofRoles records, x ∈ c.properties →
      (∃ r, (recordsOf records x).getLast? = some r ∧
        c.propertyWeightMap.find? x = some r.weight) ∧
      ((recordsOf records x).length = 1 →
        c.propertyWeightMap.find? x = some (memberWeight (ofUsers records) x)) ∧
      (weightOf (recordsOf records x) < 2 ^ 63 →
        memberWeight (ofUsers records) x = weightOf (recordsOf records x) ∧
        (c.propertyWeightMap.find? x = some (memberWeight (ofUsers records) x) ↔
          (recordsOf records x).length = 1)) := by
  obtain ⟨property, hholds⟩ := hholds
  obtain ⟨c, hc, -, hx⟩ := (exists_mem_aggregate_iff .roles (weightMap records)).2
    (holds_invert_iff.2 hholds)
  have hne : recordsOf records x ≠ [] := by
    obtain ⟨r, hr, hoid, -⟩ := hholds
    exact recordsOf_ne_nil_iff.2 ⟨r, hr, hoid⟩
  have hlast := List.getLast?_eq_some_getLast hne
  generalize (recordsOf records x).getLast hne = r at hlast
  refine ⟨⟨c, hc, hx⟩, fun c hc hx => ?_⟩
  have hfind : c.propertyWeightMap.find? x = some r.weight := by
    rw [find?_propertyWeightMap hc hx, weightIn, find?_weightMap, hlast]
    rfl
  have hone : (recordsOf records x).length = 1 →
      c.propertyWeightMap.find? x = some (memberWeight (ofUsers records) x) := by
    intro hlength
    obtain ⟨r', hsingle⟩ := List.length_eq_one_iff.1 hlength
    rw [hsingle] at hlast
    obtain rfl : r' = r := Option.some.inj hlast
    rw [hfind, ofUsers, memberWeight_aggregate_of_singleton hsingle]
  refine ⟨⟨r, hlast, hfind⟩, hone, fun hfits => ?_⟩
  have hweight : memberWeight (ofUsers records) x = weightOf (recordsOf records x) :=
    memberWeight_aggregate_of_lt hfits
  refine ⟨hweight, fun hsame => ?_, hone⟩
  by_contra hlength
  rw [hfind, hweight] at hsame
  exact (weight_getLast_lt hlast hlength).ne (Option.some.inj hsame)

/-- Ann has one record and Bob two. -/
def bobTwice : List Record :=
  [⟨"ann", .ofList ["dev", "ops"], 9, by decide⟩, ⟨"bob", .ofList ["dev", "ops"], 6, by decide⟩,
    ⟨"bob", .ofList ["dev", "ops"], 8, by decide⟩]

theorem ann_weighs_alike_and_bob_does_not :
    (∃ property, Record.Holds bobTwice "ann" property) ∧
    (∃ property, Record.Holds bobTwice "bob" property) ∧
    (∃ c ∈ ofRoles bobTwice, "ann" ∈ c.properties ∧
      c.propertyWeightMap.find? "ann" = some (memberWeight (ofUsers bobTwice) "ann")) ∧
    ∃ c ∈ ofRoles bobTwice, "bob" ∈ c.properties ∧
      c.propertyWeightMap.find? "bob" ≠ some (memberWeight (ofUsers bobTwice) "bob") := by
  have hann : ∃ property, Record.Holds bobTwice "ann" property :=
    ⟨"dev", _, List.mem_cons_self, rfl, by decide⟩
  have hbob : ∃ property, Record.Holds bobTwice "bob" property :=
    ⟨"dev", _, List.mem_cons_of_mem _ List.mem_cons_self, rfl, by decide⟩
  obtain ⟨⟨c, hc, hx⟩, hweights⟩ := user_weighs_alike_iff_one_record hann
  obtain ⟨⟨d, hd, hy⟩, hweights'⟩ := user_weighs_alike_iff_one_record hbob
  refine ⟨hann, hbob, ⟨c, hc, hx, (hweights c hc hx).2.1 (by decide)⟩, d, hd, hy, fun hsame => ?_⟩
  have hone := ((hweights' d hd hy).2.2 (by decide)).2.1 hsame
  exact absurd hone (by decide)

theorem bob_weighs_fourteen_and_eight :
    Population.ofPayload (.list [
      .object [("oid", .str "ann"), ("roles", .list [.str "dev", .str "ops"]), ("weight", .int 9)],
      .object [("oid", .str "bob"), ("roles", .list [.str "dev", .str "ops"]), ("weight", .int 6)],
      .object [("oid", .str "bob"), ("roles", .list [.str "dev", .str "ops"]),
        ("weight", .int 8)]]) = .ok bobTwice ∧
    memberWeight (ofUsers bobTwice) "bob" = 14 ∧
    (ofRoles bobTwice).map (·.properties) = [["ann", "bob"]] ∧
    (ofRoles bobTwice).map (·.propertyWeightMap.find? "bob") = [some 8] := by
  refine ⟨rfl, ?_, ?_, ?_⟩ <;> decide +kernel

end Chunk
end RoleMining
