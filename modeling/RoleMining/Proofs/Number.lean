import Mathlib.Algebra.Order.Field.Rat
import Mathlib.Data.Rat.Cast.Order
import Mathlib.Order.WithBot
import RoleMining.Number

/-!
# The order of numbers

Numbers that are compared stand on the line of rationals between the two infinities, integers and
doubles alike; not-a-number stands nowhere and compares with nothing. So comparisons go on from one
number to the next as those on a line do.
-/
namespace RoleMining.Number

variable {a b c : Number}

/-- The place of a number on the line; that of not-a-number means nothing. -/
def place : Number → WithBot (WithTop ℚ)
  | .int n => ((n : ℚ) : WithTop ℚ)
  | .float (.infinite negative) => if negative then ⊥ else (⊤ : WithTop ℚ)
  | .float x => (x.value : WithTop ℚ)

theorem below_iff : a.below b = true ↔ a.isNaN = false ∧ b.isNaN = false ∧ a.place < b.place := by
  have htop (q : ℚ) : ((q : WithTop ℚ) : WithBot (WithTop ℚ)) < ⊤ :=
    WithBot.coe_lt_coe.2 (WithTop.coe_lt_top q)
  rcases a with m | _ | ⟨_ | _⟩ | _ <;> rcases b with n | _ | ⟨_ | _⟩ | _ <;>
    simp [below, Binary64.below, isNaN, place, htop]

theorem same_iff : a.same b = true ↔ a.isNaN = false ∧ b.isNaN = false ∧ a.place = b.place := by
  rcases a with m | _ | ⟨_ | _⟩ | _ <;> rcases b with n | _ | ⟨_ | _⟩ | _ <;>
    simp [same, Binary64.same, Binary64.isFinite, isNaN, place]
  -- an integer stands on the other side of its equation
  exact eq_comm

theorem atMost_iff : a.atMost b = true ↔
    a.isNaN = false ∧ b.isNaN = false ∧ a.place ≤ b.place := by
  rw [atMost, Bool.or_eq_true, below_iff, same_iff, le_iff_lt_or_eq]
  tauto

/-- What is below a number is below every greater one. -/
theorem below_of_below_of_atMost (hab : a.below b = true) (hbc : b.atMost c = true) :
    a.below c = true := by
  rw [below_iff] at hab ⊢
  rw [atMost_iff] at hbc
  exact ⟨hab.1, hbc.2.1, hab.2.2.trans_le hbc.2.2⟩

theorem atMost_congr_left (h : a.same b = true) : a.atMost c = b.atMost c := by
  rw [same_iff] at h
  rw [Bool.eq_iff_iff, atMost_iff, atMost_iff, h.1, h.2.1, h.2.2]

theorem atMost_congr_right (h : b.same c = true) : a.atMost b = a.atMost c := by
  rw [same_iff] at h
  rw [Bool.eq_iff_iff, atMost_iff, atMost_iff, h.1, h.2.1, h.2.2]

end RoleMining.Number
