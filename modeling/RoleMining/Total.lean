/-!
# Totals

The sum of a list's elements, from its last one to its first.
-/
namespace RoleMining

variable {α : Type} [Add α] [OfNat α 0]

def total : List α → α
  | [] => 0
  | x :: rest => x + total rest

@[simp] theorem total_nil : total ([] : List α) = 0 := rfl

@[simp] theorem total_cons (x : α) (xs : List α) : total (x :: xs) = x + total xs := rfl

end RoleMining
