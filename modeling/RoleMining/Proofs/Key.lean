import Mathlib.Data.List.Lex
import Mathlib.Data.List.Sort
import Mathlib.Data.String.Basic
import RoleMining.IdSet

/-!
# The order of keys

Keys are ordered as lists of identifiers, so the order is linear. A list of sets sorted by key has
every set once and depends on its elements only, not on the order in which they were found.
-/
namespace RoleMining

theorem keyAtMost_iff {xs ys : List String} : keyAtMost xs ys = true ↔ xs ≤ ys := by
  rw [← not_lt]
  induction xs generalizing ys with
  | nil => simp [keyAtMost]
  | cons x xs ih =>
    cases ys with
    | nil => simp [keyAtMost]
    | cons y ys =>
      rw [List.cons_lt_cons_iff]
      unfold keyAtMost
      split_ifs with hlt heq
      · simp [hlt.not_gt, hlt.ne']
      · simp [heq, ih]
      · simp [lt_of_le_of_ne (not_lt.1 hlt) (Ne.symm heq)]

namespace IdSet

theorem keyAtMost_iff {s t : IdSet} : s.keyAtMost t = true ↔ s.toList ≤ t.toList :=
  RoleMining.keyAtMost_iff

theorem toList_inj {s t : IdSet} : s.toList = t.toList ↔ s = t := by
  constructor
  · intro h
    cases s
    cases t
    cases h
    rfl
  · exact congrArg toList

theorem nodup_toList (s : IdSet) : s.toList.Nodup :=
  s.sorted.imp fun h => ne_of_lt h

theorem toList_lt_of_ne {s t : IdSet} (h : s.toList ≤ t.toList) (hne : s ≠ t) :
    s.toList < t.toList :=
  lt_of_le_of_ne h fun he => hne (toList_inj.1 he)

end IdSet

/-- Lists that are strictly ordered by an asymmetric relation depend on their elements only. -/
theorem eq_of_pairwise_of_mem_iff {α : Type} {r : α → α → Prop} (hr : ∀ a b, r a b → ¬ r b a)
    {xs ys : List α} (hx : xs.Pairwise r) (hy : ys.Pairwise r) (h : ∀ a, a ∈ xs ↔ a ∈ ys) :
    xs = ys := by
  have nodup {zs : List α} (hz : zs.Pairwise r) : zs.Nodup := by
    apply hz.imp
    intro a b hab he
    subst he
    exact hr a a hab hab
  refine List.Perm.eq_of_pairwise (fun a b _ _ hab hba => absurd hba (hr a b hab)) hx hy ?_
  exact (List.perm_ext_iff_of_nodup (nodup hx) (nodup hy)).2 h

/-! ### Distinct keys -/

@[simp] theorem mem_sortKeys {keys : List IdSet} {K : IdSet} : K ∈ sortKeys keys ↔ K ∈ keys := by
  rw [sortKeys, List.mem_mergeSort, List.mem_eraseDups]

theorem nodup_eraseDups {α : Type} [BEq α] [LawfulBEq α] (xs : List α) : xs.eraseDups.Nodup := by
  cases xs with
  | nil => simp
  | cons x xs =>
    rw [List.eraseDups_cons, List.nodup_cons]
    exact ⟨by simp [List.mem_eraseDups], nodup_eraseDups _⟩
termination_by xs.length
decreasing_by
  have h := List.length_filter_le (fun y => !y == x) xs
  simp only [List.length_cons]
  omega

theorem nodup_sortKeys (keys : List IdSet) : (sortKeys keys).Nodup :=
  (List.mergeSort_perm _ _).nodup_iff.2 (nodup_eraseDups keys)

/-- The keys come in strictly ascending order. -/
theorem pairwise_sortKeys (keys : List IdSet) :
    (sortKeys keys).Pairwise fun s t => s.toList < t.toList := by
  have hle : (sortKeys keys).Pairwise fun s t => s.toList ≤ t.toList := by
    have htrans : ∀ s t u : IdSet, s.keyAtMost t = true → t.keyAtMost u = true →
        s.keyAtMost u = true := by
      intro s t u hst htu
      rw [IdSet.keyAtMost_iff] at *
      exact hst.trans htu
    have htotal : ∀ s t : IdSet, (s.keyAtMost t || t.keyAtMost s) = true := by
      intro s t
      rw [Bool.or_eq_true, IdSet.keyAtMost_iff, IdSet.keyAtMost_iff]
      exact le_total _ _
    exact (List.pairwise_mergeSort htrans htotal keys.eraseDups).imp IdSet.keyAtMost_iff.1
  exact (hle.and (nodup_sortKeys keys)).imp fun ⟨h, hne⟩ => IdSet.toList_lt_of_ne h hne

/-! ### Larger first, then by key -/

section Precedes

variable {α : Type} {size : α → ℤ} {key : α → IdSet}

/-- The larger one stands before the smaller one; of equal sizes the smaller key comes first. -/
def Precedes (size : α → ℤ) (key : α → IdSet) (a b : α) : Prop :=
  size b < size a ∨ (size a = size b ∧ (key a).toList < (key b).toList)

theorem Precedes.asymm {a b : α} (h : Precedes size key a b) : ¬ Precedes size key b a := by
  intro hba
  rcases hba with h' | ⟨he, hlt⟩
  · rcases h with h | ⟨he, -⟩ <;> omega
  · rcases h with h | ⟨-, hlt'⟩
    · omega
    · exact lt_asymm hlt hlt'

section Sorting

variable {le : α → α → Bool} {xs : List α}
variable (hle : ∀ a b, le a b = true ↔
  size b < size a ∨ (size a = size b ∧ (key a).toList ≤ (key b).toList))
include hle

theorem pairwise_mergeSort_le (xs : List α) :
    (xs.mergeSort le).Pairwise fun a b => le a b = true := by
  have htrans : ∀ a b c, le a b = true → le b c = true → le a c = true := by
    intro a b c hab hbc
    rw [hle] at hab hbc ⊢
    rcases hab with hab | ⟨hab, hkab⟩
    · rcases hbc with hbc | ⟨hbc, -⟩ <;> exact .inl (by omega)
    · rcases hbc with hbc | ⟨hbc, hkbc⟩
      · exact .inl (by omega)
      · exact .inr ⟨by omega, hkab.trans hkbc⟩
  have htotal : ∀ a b, (le a b || le b a) = true := by
    intro a b
    rw [Bool.or_eq_true, hle, hle]
    rcases lt_trichotomy (size a) (size b) with h | h | h
    · exact .inr (.inl h)
    · exact (le_total (key a).toList (key b).toList).imp (fun hk => .inr ⟨h, hk⟩)
        fun hk => .inr ⟨h.symm, hk⟩
    · exact .inl (.inl h)
  exact List.pairwise_mergeSort htrans htotal xs

/-- Sorted items with distinct keys are strictly ordered. -/
theorem pairwise_mergeSort_precedes (hkeys : ((xs.mergeSort le).map key).Nodup) :
    (xs.mergeSort le).Pairwise (Precedes size key) := by
  have hdistinct := List.pairwise_map.1 hkeys
  apply ((pairwise_mergeSort_le hle xs).and hdistinct).imp
  intro a b hab
  rcases (hle a b).1 hab.1 with h | ⟨he, hk⟩
  · exact .inl h
  · exact .inr ⟨he, IdSet.toList_lt_of_ne hk hab.2⟩

end Sorting

end Precedes
end RoleMining
