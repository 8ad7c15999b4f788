/-!
# Sets of identifiers

A set of identifiers is its sorted list without repetition, so equal sets are equal values and the
list itself is the canonical key of the set. Identifiers are ordered by code point.
-/
namespace RoleMining

/-- Put an identifier in its place in a sorted list, unless it is there. -/
def insertSorted (x : String) : List String → List String
  | [] => [x]
  | y :: rest =>
    if x < y then x :: y :: rest
    else if x = y then y :: rest
    else y :: insertSorted x rest

theorem mem_insertSorted {x z : String} {xs : List String} :
    z ∈ insertSorted x xs ↔ z = x ∨ z ∈ xs := by
  induction xs with
  | nil => simp [insertSorted]
  | cons y rest ih =>
    unfold insertSorted
    split
    · simp
    · split
      next h => simp [h]
      next => simp only [List.mem_cons, ih]; grind

theorem pairwise_insertSorted {x : String} {xs : List String} (sorted : xs.Pairwise (· < ·)) :
    (insertSorted x xs).Pairwise (· < ·) := by
  induction xs with
  | nil => simp [insertSorted]
  | cons y rest ih =>
    rw [List.pairwise_cons] at sorted
    unfold insertSorted
    split
    next below =>
      refine List.pairwise_cons.2 ⟨?_, List.pairwise_cons.2 sorted⟩
      intro z member
      rcases List.mem_cons.1 member with rfl | later
      · exact below
      · exact String.lt_trans below (sorted.1 z later)
    next notBelow =>
      split
      · exact List.pairwise_cons.2 sorted
      next different =>
        refine List.pairwise_cons.2 ⟨?_, ih sorted.2⟩
        intro z member
        rcases mem_insertSorted.1 member with rfl | later
        · grind
        · exact sorted.1 z later

/-- The order of keys: by the first identifier in which they differ, a shorter key before its
extensions. -/
def keyAtMost : List String → List String → Bool
  | [], _ => true
  | _ :: _, [] => false
  | x :: xs, y :: ys => if x < y then true else if x = y then keyAtMost xs ys else false

structure IdSet where
  toList : List String
  sorted : toList.Pairwise (· < ·)
deriving DecidableEq

namespace IdSet

def empty : IdSet := ⟨[], List.Pairwise.nil⟩

instance : Inhabited IdSet := ⟨empty⟩

instance : Membership String IdSet := ⟨fun s x => x ∈ s.toList⟩

instance (x : String) (s : IdSet) : Decidable (x ∈ s) := inferInstanceAs (Decidable (x ∈ s.toList))

theorem mem_def {x : String} {s : IdSet} : x ∈ s ↔ x ∈ s.toList := Iff.rfl

def size (s : IdSet) : Nat := s.toList.length

def insert (s : IdSet) (x : String) : IdSet :=
  ⟨insertSorted x s.toList, pairwise_insertSorted s.sorted⟩

@[simp] theorem mem_insert {s : IdSet} {x z : String} : z ∈ s.insert x ↔ z = x ∨ z ∈ s :=
  mem_insertSorted

def filter (keep : String → Bool) (s : IdSet) : IdSet := ⟨s.toList.filter keep, s.sorted.filter _⟩

@[simp] theorem mem_filter {s : IdSet} {keep : String → Bool} {x : String} :
    x ∈ s.filter keep ↔ x ∈ s ∧ keep x = true := List.mem_filter

def addAll (s : IdSet) (xs : List String) : IdSet := xs.foldl insert s

@[simp] theorem mem_addAll {s : IdSet} {xs : List String} {x : String} :
    x ∈ s.addAll xs ↔ x ∈ s ∨ x ∈ xs := by
  induction xs generalizing s with
  | nil => simp [addAll]
  | cons y rest ih =>
    have step : s.addAll (y :: rest) = (s.insert y).addAll rest := rfl
    rw [step, ih, mem_insert, List.mem_cons]
    grind

/-- The set of a list's elements. -/
def ofList (xs : List String) : IdSet := empty.addAll xs

@[simp] theorem mem_ofList {xs : List String} {x : String} : x ∈ ofList xs ↔ x ∈ xs := by
  rw [ofList, mem_addAll]
  exact ⟨fun h => h.elim (fun absurd => nomatch absurd) id, Or.inr⟩

def inter (s t : IdSet) : IdSet := s.filter fun x => decide (x ∈ t)

@[simp] theorem mem_inter {s t : IdSet} {x : String} : x ∈ s.inter t ↔ x ∈ s ∧ x ∈ t := by
  simp [inter]

def union (s t : IdSet) : IdSet := s.addAll t.toList

@[simp] theorem mem_union {s t : IdSet} {x : String} : x ∈ s.union t ↔ x ∈ s ∨ x ∈ t := mem_addAll

def isSubset (s t : IdSet) : Bool := s.toList.all fun x => decide (x ∈ t)

theorem isSubset_iff {s t : IdSet} : s.isSubset t = true ↔ ∀ x ∈ s, x ∈ t := by
  simp [isSubset, mem_def]

def keyAtMost (s t : IdSet) : Bool := RoleMining.keyAtMost s.toList t.toList

private theorem eq_of_sorted {xs ys : List String} (hx : xs.Pairwise (· < ·))
    (hy : ys.Pairwise (· < ·)) (same : ∀ z, z ∈ xs ↔ z ∈ ys) : xs = ys := by
  induction xs generalizing ys with
  | nil =>
    cases ys with
    | nil => rfl
    | cons y rest => exact absurd ((same y).2 List.mem_cons_self) (by simp)
  | cons x rest ih =>
    cases ys with
    | nil => exact absurd ((same x).1 List.mem_cons_self) (by simp)
    | cons y rest' =>
      rw [List.pairwise_cons] at hx hy
      have heads : x = y := by
        rcases List.mem_cons.1 ((same x).1 List.mem_cons_self) with h | inRest'
        · exact h
        · rcases List.mem_cons.1 ((same y).2 List.mem_cons_self) with h | inRest
          · exact h.symm
          · exact absurd (hx.1 y inRest) (String.lt_asymm (hy.1 x inRest'))
      subst heads
      refine congrArg _ (ih hx.2 hy.2 fun z => ⟨fun h => ?_, fun h => ?_⟩)
      · rcases List.mem_cons.1 ((same z).1 (List.mem_cons_of_mem _ h)) with rfl | later
        · exact absurd (hx.1 z h) (String.lt_irrefl z)
        · exact later
      · rcases List.mem_cons.1 ((same z).2 (List.mem_cons_of_mem _ h)) with rfl | later
        · exact absurd (hy.1 z h) (String.lt_irrefl z)
        · exact later

/-- Sets with the same elements are equal. -/
theorem ext_mem {s t : IdSet} (same : ∀ z, z ∈ s ↔ z ∈ t) : s = t := by
  have lists := eq_of_sorted s.sorted t.sorted same
  cases s
  cases t
  cases lists
  rfl

/-- The sum of the identifiers' weights. -/
def weighted {α : Type} [Add α] [OfNat α 0] (weight : String → α) (s : IdSet) : α :=
  s.toList.foldl (fun sum x => sum + weight x) 0

end IdSet

/-- Distinct keys in ascending order. -/
def sortKeys (keys : List IdSet) : List IdSet :=
  keys.eraseDups.mergeSort IdSet.keyAtMost

/-- The weight that a ledger gives an identifier; an unknown one weighs one. -/
def weightIn {α : Type} [OfNat α 1] (find : String → Option α) (x : String) : α := (find x).getD 1

end RoleMining
