import RoleMining.Proofs.Detection.Weights

/-!
# Chunks of records

When records have distinct identities, every identity is a member of one chunk only, the chunk of
its own property set, and keeps its weight there: a sum of one weight never wraps around. So the
chunks agree on all weights, and a chunk's property set says exactly what each of its members holds.
-/
namespace RoleMining

@[simp] theorem IdSet.ofList_toList (s : IdSet) : IdSet.ofList s.toList = s :=
  IdSet.ext_mem fun _ => IdSet.mem_ofList

theorem IdSet.not_mem_empty {x : String} : x ∉ IdSet.empty := by
  simp [mem_def, empty]

theorem IdSet.mem_foldl_union {α : Type} {ids : α → IdSet} {items : List α} {start : IdSet}
    {x : String} : x ∈ items.foldl (fun all item => all.union (ids item)) start ↔
      x ∈ start ∨ ∃ item ∈ items, x ∈ ids item := by
  induction items generalizing start with
  | nil => simp
  | cons item items ih =>
    rw [List.foldl_cons, ih]
    simp [or_assoc]

theorem IdSet.mem_foldl_union_empty {α : Type} {ids : α → IdSet} {items : List α} {x : String} :
    x ∈ items.foldl (fun (all : IdSet) item => all.union (ids item)) .empty ↔
      ∃ item ∈ items, x ∈ ids item := by
  rw [mem_foldl_union]
  exact or_iff_right not_mem_empty

namespace Record

/-- One of the records gives the identity the property. -/
def Holds (records : List Record) (oid property : String) : Prop :=
  ∃ r ∈ records, r.oid = oid ∧ property ∈ r.properties

variable {records : List Record} {r r' : Record}

theorem eq_of_oid_eq (hoids : (records.map (·.oid)).Nodup) (hr : r ∈ records) (hr' : r' ∈ records)
    (h : r.oid = r'.oid) : r = r' :=
  List.inj_on_of_nodup_map hoids hr hr' h

theorem filter_oid_eq_singleton (hoids : (records.map (·.oid)).Nodup) (hr : r ∈ records) :
    (records.filter fun other => other.oid = r.oid) = [r] := by
  refine List.perm_singleton.1 ((List.perm_ext_iff_of_nodup ?_ (List.nodup_singleton r)).2 ?_)
  · exact hoids.of_map.filter _
  · intro other
    rw [List.mem_filter, decide_eq_true_eq, List.mem_singleton]
    constructor
    · exact fun ⟨hother, hoid⟩ => eq_of_oid_eq hoids hother hr hoid
    · intro he
      subst he
      exact ⟨hr, rfl⟩

theorem holds_iff (hoids : (records.map (·.oid)).Nodup) (hr : r ∈ records) {property : String} :
    Holds records r.oid property ↔ property ∈ r.properties := by
  constructor
  · intro hholds
    rcases hholds with ⟨r', hr', hoid, hproperty⟩
    rwa [eq_of_oid_eq hoids hr' hr hoid] at hproperty
  · exact fun h => ⟨r, hr, rfl, h⟩

/-- An identity that holds all of some properties does so by one record. -/
theorem forall_holds_iff (hoids : (records.map (·.oid)).Nodup) {properties : IdSet}
    (hsome : ∃ x, x ∈ properties) {oid : String} : (∀ x ∈ properties, Holds records oid x) ↔
      ∃ r ∈ records, r.oid = oid ∧ properties ⊆ r.properties := by
  constructor
  · intro hall
    obtain ⟨x, hx⟩ := hsome
    obtain ⟨r, hr, rfl, -⟩ := hall x hx
    exact ⟨r, hr, rfl, fun y hy => (holds_iff hoids hr).1 (hall y hy)⟩
  · intro hrecord x hx
    rcases hrecord with ⟨r, hr, rfl, hsub⟩
    exact (holds_iff hoids hr).2 (hsub x hx)

theorem make_eq_ok_iff {oid : String} {properties : IdSet} {weight : ℤ} :
    make oid properties weight = .ok r ↔
    r.oid = oid ∧ r.properties = properties ∧ r.weight = weight := by
  unfold make
  split
  next =>
    cases r
    simp [eq_comm]
  next hnone =>
    simp only [reduceCtorEq, false_iff, not_and]
    intro _ _ hweight
    exact hnone (hweight ▸ r.positive)

end Record

namespace Chunk

variable {kind : Kind} {width : Width} {propertyWeights : Ledger String ℤ} {records : List Record}
variable {key : IdSet} {c : Chunk} {x : String}

/-! ### Weights of one identity -/

/-- A weight alone fits the words that hold all weights. -/
theorem Width.sum_singleton {weights : List ℤ} {w : ℤ} (hw : w ∈ weights) (hpos : 0 ≤ w) :
    (Width.holding weights).sum [w] = w := by
  have htotal : total [w] = w := add_zero w
  unfold Width.holding Width.sum
  rw [htotal]
  split_ifs with hsigned hunsigned
  · have hlt : w < Word.signedEnd := of_decide_eq_true (List.all_eq_true.1 hsigned w hw)
    unfold Word.signedEnd at hlt
    refine Int.bmod_eq_of_le ?_ ?_ <;> (unfold Word.count; omega)
  · have hlt : w < Word.unsignedEnd := of_decide_eq_true (List.all_eq_true.1 hunsigned w hw)
    exact Int.emod_eq_of_lt hpos hlt
  · rfl

theorem find?_weightsBeside_nil {ids : List String} (hx : x ∈ ids) :
    (weightsBeside ids []).find? x = some 1 := by
  have hzip : ids.zip (List.replicate ids.length (1 : ℤ)) = ids.map fun id => (id, 1) := by
    rw [← List.map_const', ← List.zip_map', List.map_id']
  change (Ledger.ofList (ids.zip (List.replicate ids.length 1))).find? x = _
  rw [hzip]
  exact Ledger.find?_ofList_map (f := fun _ => (1 : ℤ)) hx

theorem find?_weightsBeside_map {f : String → ℤ} {ids : List String} (hx : x ∈ ids) :
    (weightsBeside ids (ids.map f)).find? x = some (f x) := by
  have hne : ¬ (ids.map f).isEmpty = true := by
    rw [List.isEmpty_iff, List.map_eq_nil_iff]
    exact List.ne_nil_of_mem hx
  have hzip : ids.zip (ids.map f) = ids.map fun id => (id, f id) := by
    rw [← List.zip_map', List.map_id']
  unfold weightsBeside
  rw [if_neg hne, hzip]
  exact Ledger.find?_ofList_map hx

/-! ### One chunk for each property set -/

/-- The records behind a property set. -/
def groupOf (records : List Record) (key : IdSet) : List Record :=
  records.filter (·.properties = key)

theorem mem_groupOf {r : Record} :
    r ∈ groupOf records key ↔ r ∈ records ∧ r.properties = key := by
  simp [groupOf]

@[simp] theorem propertySet_ofGroup :
    (ofGroup kind width propertyWeights records key).propertySet = key :=
  IdSet.ofList_toList key

theorem mem_members_ofGroup : x ∈ (ofGroup kind width propertyWeights records key).members ↔
    ∃ r ∈ records, r.properties = key ∧ r.oid = x := by
  change x ∈ IdSet.ofList ((records.filter (·.properties = key)).map (·.oid)) ↔ _
  simp [and_assoc]

theorem memberWeights_ofGroup : (ofGroup kind width propertyWeights records key).memberWeights =
    (ofGroup kind width propertyWeights records key).members.map fun oid =>
      width.sum (((records.filter (·.properties = key)).filter (·.oid = oid)).map (·.weight)) := rfl

theorem propertyWeights_ofGroup : (ofGroup kind width propertyWeights records key).propertyWeights =
    if propertyWeights.size = 0 then []
    else (ofGroup kind width propertyWeights records key).properties.map
      (weightIn propertyWeights.find?) := rfl

theorem mem_aggregate_iff : c ∈ aggregate kind propertyWeights records ↔
    ∃ r ∈ records, c = ofGroup kind (Width.holding (records.map (·.weight))) propertyWeights
      records r.properties := by
  unfold aggregate
  simp only [List.mem_mergeSort, List.mem_map, List.mem_eraseDups, exists_exists_and_eq_and]
  simp only [eq_comm]

/-- Every chunk has the property set of one of its members. -/
theorem members_ne_nil_of_mem_aggregate (hc : c ∈ aggregate kind propertyWeights records) :
    ∃ x, x ∈ c.members := by
  obtain ⟨r, hr, rfl⟩ := mem_aggregate_iff.1 hc
  exact ⟨r.oid, mem_members_ofGroup.2 ⟨r, hr, rfl, rfl⟩⟩

section Distinct

variable (hoids : (records.map (·.oid)).Nodup)
include hoids

/-- A chunk's property set is what each of its members holds. -/
theorem mem_propertySet_iff (hc : c ∈ aggregate kind propertyWeights records) (hx : x ∈ c.members)
    {y : String} : y ∈ c.propertySet ↔ Record.Holds records x y := by
  obtain ⟨r, -, rfl⟩ := mem_aggregate_iff.1 hc
  obtain ⟨r', hr', hkey, rfl⟩ := mem_members_ofGroup.1 hx
  rw [propertySet_ofGroup, Record.holds_iff hoids hr', hkey]

theorem find?_memberWeightMap {weight : String → ℤ}
    (hweight : ∀ r ∈ records, weight r.oid = r.weight)
    (hc : c ∈ aggregate kind propertyWeights records) (hx : x ∈ c.members) :
    c.memberWeightMap.find? x = some (weight x) := by
  obtain ⟨r, -, rfl⟩ := mem_aggregate_iff.1 hc
  obtain ⟨r', hr', hkey, rfl⟩ := mem_members_ofGroup.1 hx
  have hsingle :
      (records.filter (·.properties = r.properties)).filter (·.oid = r'.oid) = [r'] := by
    rw [List.filter_comm, Record.filter_oid_eq_singleton hoids hr']
    simp [hkey]
  rw [memberWeightMap, memberWeights_ofGroup, find?_weightsBeside_map hx, hsingle,
    List.map_singleton,
    Width.sum_singleton (List.mem_map_of_mem hr') (le_trans (by decide) r'.positive), hweight r' hr']

omit hoids in
theorem find?_propertyWeightMap (hc : c ∈ aggregate kind propertyWeights records)
    (hx : x ∈ c.properties) :
    c.propertyWeightMap.find? x = some (weightIn propertyWeights.find? x) := by
  obtain ⟨r, -, rfl⟩ := mem_aggregate_iff.1 hc
  rw [propertyWeightMap, propertyWeights_ofGroup]
  split_ifs with hsize
  · have hnone : propertyWeights.find? x = none := by
      rw [Ledger.find?, List.length_eq_zero_iff.1 hsize]
      rfl
    rw [find?_weightsBeside_nil hx, weightIn, hnone, Option.getD_none]
  · exact find?_weightsBeside_map hx

/-- Chunks of records with distinct identities agree on all weights. -/
theorem consistent_aggregate {weight : String → ℤ}
    (hweight : ∀ r ∈ records, weight r.oid = r.weight)
    (hpositive : ∀ x, 1 ≤ weightIn propertyWeights.find? x) :
    Consistent weight (weightIn propertyWeights.find?)
      (aggregate kind propertyWeights records) where
  members c hc x hx := by
    refine ⟨find?_memberWeightMap hoids hweight hc hx, ?_⟩
    obtain ⟨r, -, rfl⟩ := mem_aggregate_iff.1 hc
    obtain ⟨r', hr', -, rfl⟩ := mem_members_ofGroup.1 hx
    rw [hweight r' hr']
    exact r'.positive
  properties c hc x hx := ⟨find?_propertyWeightMap hc hx, hpositive x⟩

end Distinct

end Chunk

/-! ### Weights and holders of the other axis -/

section Axes

variable {records : List Record}

theorem weightIn_weightMap {r : Record} (hoids : (records.map (·.oid)).Nodup) (hr : r ∈ records) :
    weightIn (weightMap records).find? r.oid = r.weight := by
  have hkeys : ((records.map fun r => (r.oid, r.weight)).map Prod.fst).Nodup := by
    rwa [List.map_map]
  have hfind : (weightMap records).find? r.oid = some r.weight :=
    (Ledger.find?_ofList_eq_some_iff hkeys).2 (List.mem_map.2 ⟨r, hr, rfl⟩)
  rw [weightIn, hfind, Option.getD_some]

/-- An identity weighs what one of the records weighs, or one if it is unknown. -/
theorem weightIn_weightMap_of_forall {p : ℤ → Prop} (hone : p 1) (h : ∀ r ∈ records, p r.weight)
    (x : String) : p (weightIn (weightMap records).find? x) := by
  cases hfind : (weightMap records).find? x with
  | none => rwa [weightIn, hfind, Option.getD_none]
  | some value =>
    rw [weightIn, hfind, Option.getD_some]
    rw [weightMap, Ledger.find?_ofList] at hfind
    obtain ⟨r, hr, he⟩ := List.mem_map.1 (List.mem_reverse.1 (mem_of_valueAt hfind))
    obtain ⟨-, rfl⟩ := Prod.mk.inj he
    exact h r hr

theorem one_le_weightMap (x : String) : 1 ≤ weightIn (weightMap records).find? x :=
  weightIn_weightMap_of_forall le_rfl (fun r _ => r.positive) x

theorem mem_heldProperties {x : String} :
    x ∈ heldProperties records ↔ ∃ r ∈ records, x ∈ r.properties := IdSet.mem_foldl_union_empty

theorem properties_subset_heldProperties {r : Record} (hr : r ∈ records) :
    r.properties ⊆ heldProperties records :=
  fun _ hx => mem_heldProperties.2 ⟨r, hr, hx⟩

theorem mem_holders_iff {x y : String} : y ∈ holders records x ↔ Record.Holds records y x := by
  simp only [holders, IdSet.mem_ofList, List.mem_map, List.mem_filter, decide_eq_true_eq,
    Record.Holds, and_assoc]
  exact exists_congr fun r => and_congr_right fun _ => and_comm

/-- Of the inverted records one is each property's, and it has the property's holders. -/
theorem exists_mem_invert_iff {x : String} {p : IdSet → Prop} :
    (∃ r ∈ invert records, r.oid = x ∧ p r.properties) ↔
      x ∈ heldProperties records ∧ p (holders records x) := by
  unfold invert
  simp only [List.mem_map, exists_exists_and_eq_and]
  constructor
  · intro hrecord
    rcases hrecord with ⟨property, hproperty, rfl, hp⟩
    exact ⟨hproperty, hp⟩
  · exact fun h => ⟨x, h.1, rfl, h.2⟩

theorem holds_invert_iff {x y : String} :
    Record.Holds (invert records) x y ↔ Record.Holds records y x := by
  refine (exists_mem_invert_iff (p := fun P => y ∈ P)).trans ?_
  rw [mem_holders_iff]
  refine and_iff_right_of_imp fun hholds => ?_
  obtain ⟨r, hr, -, hx⟩ := hholds
  exact mem_heldProperties.2 ⟨r, hr, hx⟩

/-- Inverted records have distinct identities, whatever the records. -/
theorem nodup_oid_invert (records : List Record) : ((invert records).map (·.oid)).Nodup := by
  have hoids : (invert records).map (·.oid) = (heldProperties records).toList := by
    rw [invert, List.map_map]
    exact List.map_id _
  rw [hoids]
  exact (heldProperties records).nodup_toList

theorem oid_mem_of_mem_invert {r : Record} (hr : r ∈ invert records) :
    r.oid ∈ heldProperties records := by
  obtain ⟨property, hproperty, rfl⟩ := List.mem_map.1 hr
  exact hproperty

theorem weight_of_mem_invert {r : Record} (hr : r ∈ invert records) : r.weight = 1 := by
  obtain ⟨property, -, rfl⟩ := List.mem_map.1 hr
  rfl

end Axes
end RoleMining
