import Mathlib.Algebra.BigOperators.Fin
import Mathlib.Algebra.Order.BigOperators.Group.Finset
import Mathlib.Algebra.Order.Field.Rat
import RoleMining.Intersection
import RoleMining.Proofs.Key

/-!
# Weighted sizes and thresholds

The weighted size of a set is a sum over its elements, so it grows with the set as long as no weight
is negative. A threshold that a set reaches is reached by every larger set.
-/
namespace RoleMining

instance : HasSubset IdSet := ⟨fun s t => ∀ x, x ∈ s → x ∈ t⟩

theorem IdSet.subset_iff {s t : IdSet} : s.isSubset t = true ↔ s ⊆ t := IdSet.isSubset_iff

theorem total_eq_sum (xs : List ℤ) : total xs = xs.sum := by
  induction xs with
  | nil => rfl
  | cons x xs ih => rw [total_cons, List.sum_cons, ih]

namespace IdSet

/-- The elements as a finite set. -/
def toFinset (s : IdSet) : Finset String := s.toList.toFinset

@[simp] theorem mem_toFinset {s : IdSet} {x : String} : x ∈ s.toFinset ↔ x ∈ s :=
  List.mem_toFinset

theorem weighted_eq_sum_map (weight : String → ℤ) (s : IdSet) :
    s.weighted weight = (s.toList.map weight).sum := by
  rw [weighted, List.sum_eq_foldl, List.foldl_map]

theorem weighted_eq_sum (weight : String → ℤ) (s : IdSet) :
    s.weighted weight = ∑ x ∈ s.toFinset, weight x := by
  rw [weighted_eq_sum_map, toFinset, List.sum_toFinset _ s.nodup_toList]

theorem weighted_congr {weight weight' : String → ℤ} {s : IdSet}
    (h : ∀ x ∈ s, weight x = weight' x) : s.weighted weight = s.weighted weight' := by
  rw [weighted_eq_sum, weighted_eq_sum]
  exact Finset.sum_congr rfl fun x hx => h x (mem_toFinset.1 hx)

theorem weighted_mono {weight : String → ℤ} {s t : IdSet} (hw : ∀ x ∈ t, 0 ≤ weight x)
    (h : s ⊆ t) : s.weighted weight ≤ t.weighted weight := by
  rw [weighted_eq_sum, weighted_eq_sum]
  refine Finset.sum_le_sum_of_subset_of_nonneg ?_ fun x hx _ => hw x (mem_toFinset.1 hx)
  intro x hx
  exact mem_toFinset.2 (h x (mem_toFinset.1 hx))

theorem weighted_nonneg {weight : String → ℤ} {s : IdSet} (hw : ∀ x ∈ s, 0 ≤ weight x) :
    0 ≤ s.weighted weight := by
  rw [weighted_eq_sum]
  exact Finset.sum_nonneg fun x hx => hw x (mem_toFinset.1 hx)

/-- Counted by ones, a set weighs its size. -/
@[simp] theorem weighted_one (s : IdSet) : s.weighted (fun _ => (1 : ℤ)) = s.size := by
  simp [weighted_eq_sum_map, size]

end IdSet

/-- A smaller integer stays below what a larger one is below. -/
theorem Number.below_of_le {a b : ℤ} {n : Number} (hab : a ≤ b)
    (h : (Number.int b).below n = true) : (Number.int a).below n = true := by
  cases n with
  | int m =>
    simp only [below, decide_eq_true_eq] at h ⊢
    omega
  | float x =>
    cases x with
    | nan => simp [below] at h
    | infinite negative => simpa [below] using h
    | finite negative significand exponent normal =>
      simp only [below, decide_eq_true_eq] at h ⊢
      have hcast : (a : ℚ) ≤ b := by exact_mod_cast hab
      exact hcast.trans_lt h

theorem reaches_iff {weight : String → ℤ} {size : Number} {s : IdSet} :
    reaches weight size s = true ↔ (Number.int (s.weighted weight)).below size = false := by
  simp [reaches]

theorem reaches_mono {weight : String → ℤ} {size : Number} {s t : IdSet}
    (hw : ∀ x ∈ t, 0 ≤ weight x) (hst : s ⊆ t) (h : reaches weight size s = true) :
    reaches weight size t = true := by
  rw [reaches_iff] at h ⊢
  by_contra hne
  have hbelow := Number.below_of_le (IdSet.weighted_mono hw hst) (Bool.not_eq_false _ ▸ hne)
  simp [hbelow] at h

end RoleMining
