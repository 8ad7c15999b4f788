import Mathlib.Algebra.BigOperators.Group.List.Basic
import Mathlib.Algebra.Order.BigOperators.Group.List
import Mathlib.Algebra.Order.Ring.Int
import Mathlib.Data.List.Nodup
import RoleMining.Record

/-!
# What records weigh together

Weights are positive, so more records weigh more. However items are put into groups, they weigh
together what the groups do.
-/
namespace RoleMining

variable {records records' : List Record} {r : Record}

/-- What some records weigh together. -/
def weightOf (records : List Record) : ℤ := (records.map (·.weight)).sum

theorem weight_nonneg_of_mem {w : ℤ} (hw : w ∈ records.map (·.weight)) : 0 ≤ w := by
  obtain ⟨r, -, rfl⟩ := List.mem_map.1 hw
  exact le_trans (by decide) r.positive

theorem weightOf_nonneg (records : List Record) : 0 ≤ weightOf records :=
  List.sum_nonneg fun _ => weight_nonneg_of_mem

theorem weightOf_le_of_sublist (h : records.Sublist records') :
    weightOf records ≤ weightOf records' :=
  (h.map _).sum_le_sum fun _ => weight_nonneg_of_mem

theorem weight_le_weightOf (hr : r ∈ records) : r.weight ≤ weightOf records := by
  have hle := weightOf_le_of_sublist (List.singleton_sublist.2 hr)
  rwa [weightOf, List.map_singleton, List.sum_singleton] at hle

theorem weightOf_eq_of_perm (h : records.Perm records') : weightOf records = weightOf records' :=
  (h.map _).sum_eq

theorem weightOf_pos (hne : records ≠ []) : 0 < weightOf records := by
  obtain ⟨r, hr⟩ := List.exists_mem_of_ne_nil records hne
  exact lt_of_lt_of_le (by decide) (r.positive.trans (weight_le_weightOf hr))

theorem weightOf_eq_zero_iff : weightOf records = 0 ↔ records = [] := by
  constructor
  · intro hzero
    by_contra hne
    exact (weightOf_pos hne).ne' hzero
  · rintro rfl
    rfl

/-- Records that are picked weigh what all do when the others are counted for nothing. -/
theorem weightOf_filter (p : Record → Bool) (records : List Record) :
    weightOf (records.filter p) = (records.map fun r => (if p r then 1 else 0) * r.weight).sum := by
  induction records with
  | nil => rfl
  | cons r records ih =>
    unfold weightOf at ih ⊢
    by_cases hp : p r <;> simp [hp, ih]

/-- What some items weigh together is the sum of what the groups weigh that a key puts them into. -/
theorem sum_groups {α β : Type} [DecidableEq β] {key : α → β} {weight : α → ℤ} {keys : List β}
    {items : List α} (hkeys : keys.Nodup) (hcovered : ∀ x ∈ items, key x ∈ keys) :
    (keys.map fun k => ((items.filter (key · = k)).map weight).sum).sum =
      (items.map weight).sum := by
  induction items with
  | nil => simp
  | cons x items ih =>
    -- the group of its own key gains the item's weight, and no other group changes
    have hgroup (k : β) : (((x :: items).filter (key · = k)).map weight).sum =
        (if k = key x then weight x else 0) + ((items.filter (key · = k)).map weight).sum := by
      by_cases hk : key x = k
      · simp [hk]
      · simp [hk, Ne.symm hk]
    have hown : (keys.map fun k => if k = key x then weight x else 0).sum = weight x := by
      rw [List.sum_map_ite_eq, List.count_eq_one_of_mem hkeys (hcovered x List.mem_cons_self)]
      simp
    simp only [hgroup, List.sum_map_add, List.map_cons, List.sum_cons, hown]
    rw [ih fun y hy => hcovered y (List.mem_cons_of_mem x hy)]

end RoleMining
