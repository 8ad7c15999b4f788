import Mathlib.Algebra.Order.Field.Rat
import Mathlib.Algebra.Order.Field.Power
import Mathlib.Data.Rat.Cast.Order
import Mathlib.Tactic.Linarith
import Mathlib.Tactic.Positivity
import Mathlib.Tactic.Zify
import RoleMining.Binary64.Basic

/-!
# Which rationals round to finite numbers

The exponent of a rounded quotient is found from an estimate by bit lengths, which is off by at
most one. With the right exponent the significand has at most 53 bits, or is the power of two that
carries into the exponent. So nothing below two to the power of 1023 overflows.
-/
namespace RoleMining

theorem twoPower_eq (k : ℕ) : twoPower k = 2 ^ k := rfl

theorem nearestEven_le {n d m : ℕ} (hd : 0 < d) (h : n ≤ m * d) : nearestEven n d ≤ m := by
  have hwhole : n / d ≤ m := Nat.div_le_of_le_mul (by rwa [Nat.mul_comm])
  have hsplit := Nat.div_add_mod n d
  unfold nearestEven
  dsimp only
  rcases Nat.lt_or_eq_of_le hwhole with hlt | heq
  · split_ifs <;> omega
  · have hrest : n % d = 0 := by
      rw [heq, Nat.mul_comm] at hsplit
      omega
    rw [hrest, if_pos (by omega)]
    exact hwhole

theorem le_nearestEven {n d m : ℕ} (hd : 0 < d) (h : m * d ≤ n) : m ≤ nearestEven n d := by
  have hwhole : m ≤ n / d := (Nat.le_div_iff_mul_le hd).2 h
  unfold nearestEven
  dsimp only
  split_ifs <;> omega

namespace Binary64

theorem zpow_toNat {e : ℤ} (he : 0 ≤ e) : (2 : ℚ) ^ e = ((2 ^ e.toNat : ℕ) : ℚ) := by
  rw [Nat.cast_pow, Nat.cast_ofNat, ← zpow_natCast, Int.toNat_of_nonneg he]

theorem zpow_toNat_neg {e : ℤ} (he : e ≤ 0) : (2 : ℚ) ^ e = ((2 ^ (-e).toNat : ℕ) : ℚ)⁻¹ := by
  rw [← zpow_toNat (by omega), ← zpow_neg, neg_neg]

theorem natPow_mul_zpow {b : ℕ} {a e : ℤ} (h : b + e = a) :
    ((2 ^ b : ℕ) : ℚ) * 2 ^ e = 2 ^ a := by
  rw [Nat.cast_pow, Nat.cast_ofNat, ← zpow_natCast, ← zpow_add₀ (by norm_num), h]

/-- The quotient is at least two to the power of `e` and below the next power. -/
def HasLeadingPower (n d : ℕ) (e : ℤ) : Prop :=
  (d : ℚ) * 2 ^ e ≤ n ∧ (n : ℚ) < d * 2 ^ (e + 1)

/-- Bit lengths give the leading power up to one. -/
theorem estimate_bounds {n d : ℕ} (hn : n ≠ 0) (hd : d ≠ 0) :
    (d : ℚ) * 2 ^ ((n.log2 : ℤ) - d.log2 - 1) ≤ n ∧
      (n : ℚ) < d * 2 ^ ((n.log2 : ℤ) - d.log2 + 1) := by
  have hnlow : (2 : ℚ) ^ (n.log2 : ℤ) ≤ n := by exact_mod_cast Nat.log2_self_le hn
  have hnhigh : (n : ℚ) < 2 ^ ((n.log2 + 1 : ℕ) : ℤ) := by exact_mod_cast Nat.lt_log2_self
  have hdlow : ((2 ^ d.log2 : ℕ) : ℚ) ≤ d := by exact_mod_cast Nat.log2_self_le hd
  have hdhigh : (d : ℚ) < ((2 ^ (d.log2 + 1) : ℕ) : ℚ) := by exact_mod_cast Nat.lt_log2_self
  constructor
  · calc (d : ℚ) * 2 ^ ((n.log2 : ℤ) - d.log2 - 1)
        ≤ ((2 ^ (d.log2 + 1) : ℕ) : ℚ) * 2 ^ ((n.log2 : ℤ) - d.log2 - 1) :=
          mul_le_mul_of_nonneg_right hdhigh.le (by positivity)
      _ = 2 ^ (n.log2 : ℤ) := natPow_mul_zpow (by omega)
      _ ≤ n := hnlow
  · calc (n : ℚ) < 2 ^ ((n.log2 + 1 : ℕ) : ℤ) := hnhigh
      _ = ((2 ^ d.log2 : ℕ) : ℚ) * 2 ^ ((n.log2 : ℤ) - d.log2 + 1) :=
          (natPow_mul_zpow (by omega)).symm
      _ ≤ d * 2 ^ ((n.log2 : ℤ) - d.log2 + 1) := mul_le_mul_of_nonneg_right hdlow (by positivity)

theorem reached_iff (n d : ℕ) (e : ℤ) :
    (if 0 ≤ e then d * twoPower e.toNat ≤ n else d ≤ n * twoPower (-e).toNat) ↔
      (d : ℚ) * 2 ^ e ≤ n := by
  split_ifs with hsign
  · rw [zpow_toNat hsign, twoPower_eq]
    norm_cast
  · rw [zpow_toNat_neg (by omega), twoPower_eq, ← div_eq_mul_inv, div_le_iff₀ (by positivity)]
    norm_cast

/-- The exponent puts the leading power of a quotient at the top of 53 bits, if it can. -/
theorem exponentFor_eq {n d : ℕ} (hn : n ≠ 0) (hd : d ≠ 0) :
    ∃ e, HasLeadingPower n d e ∧ exponentFor n d = max (-1074) (e - 52) := by
  obtain ⟨hlow, hhigh⟩ := estimate_bounds hn hd
  unfold exponentFor
  simp only [reached_iff]
  split_ifs with hreached
  · exact ⟨_, ⟨hreached, hhigh⟩, rfl⟩
  · refine ⟨_, ⟨hlow, ?_⟩, by congr 1; omega⟩
    rw [sub_add_cancel]
    exact not_le.1 hreached

theorem significandAt_le {n d m : ℕ} {e : ℤ} (hd : 0 < d) (h : (n : ℚ) ≤ d * (m * 2 ^ e)) :
    significandAt n d e ≤ m := by
  unfold significandAt
  split_ifs with hsign
  · rw [zpow_toNat hsign] at h
    apply nearestEven_le (Nat.mul_pos hd (Nat.two_pow_pos _))
    rw [Nat.mul_left_comm]
    exact_mod_cast h
  · rw [zpow_toNat_neg (by omega), ← mul_assoc, ← div_eq_mul_inv,
      le_div_iff₀ (by positivity)] at h
    apply nearestEven_le hd
    rw [twoPower_eq, Nat.mul_comm m]
    exact_mod_cast h

theorem le_significandAt {n d m : ℕ} {e : ℤ} (hd : 0 < d) (h : (d : ℚ) * (m * 2 ^ e) ≤ n) :
    m ≤ significandAt n d e := by
  unfold significandAt
  split_ifs with hsign
  · rw [zpow_toNat hsign] at h
    apply le_nearestEven (Nat.mul_pos hd (Nat.two_pow_pos _))
    rw [Nat.mul_left_comm]
    exact_mod_cast h
  · rw [zpow_toNat_neg (by omega), ← mul_assoc, ← div_eq_mul_inv,
      div_le_iff₀ (by positivity)] at h
    apply le_nearestEven hd
    rw [twoPower_eq, Nat.mul_comm m]
    exact_mod_cast h

theorem isFinite_ofRounded {negative : Bool} {significand : ℕ} {exponent : ℤ}
    (hlow : -1074 ≤ exponent) (hhigh : exponent ≤ 970) (hfits : significand ≤ 2 ^ 53)
    (hfull : 2 ^ 52 ≤ significand ∨ exponent = -1074) :
    (ofRounded negative significand exponent).isFinite = true := by
  unfold ofRounded
  by_cases hcarry : significand = twoPower 53
  · rw [if_pos hcarry]
    dsimp only
    rw [dif_pos]
    · rfl
    · unfold IsNormalForm
      simp only [twoPower_eq]
      omega
  · rw [if_neg hcarry]
    dsimp only
    rw [dif_pos]
    · rfl
    · unfold IsNormalForm
      simp only [twoPower_eq] at hcarry ⊢
      omega

/-- A rational below two to the power of 1023 in size rounds to a finite number. -/
theorem isFinite_ofRat {q : ℚ} (h : |q| < 2 ^ (1023 : ℤ)) : (ofRat q).isFinite = true := by
  unfold ofRat ofRatSigned
  split_ifs with hzero
  · rfl
  have hn : q.num.natAbs ≠ 0 := Int.natAbs_ne_zero.2 hzero
  have hd : (0 : ℚ) < q.den := by exact_mod_cast q.den_pos
  have habs : (q.num.natAbs : ℚ) < q.den * 2 ^ (1023 : ℤ) := by
    rw [← Rat.num_div_den q, abs_div, abs_of_pos hd, div_lt_iff₀ hd, mul_comm] at h
    rwa [Nat.cast_natAbs, Int.cast_abs]
  obtain ⟨e, ⟨hlow, hhigh⟩, hexponent⟩ := exponentFor_eq hn q.den_ne_zero
  have he : e < 1023 := by
    have hpow : (2 : ℚ) ^ e < 2 ^ (1023 : ℤ) :=
      lt_of_mul_lt_mul_left (hlow.trans_lt habs) hd.le
    exact (zpow_lt_zpow_iff_right₀ (by norm_num)).1 hpow
  dsimp only
  rw [hexponent]
  refine isFinite_ofRounded (le_max_left _ _) (by omega) (significandAt_le q.den_pos ?_) ?_
  · have hpow : (2 : ℚ) ^ (e + 1) ≤ ((2 ^ 53 : ℕ) : ℚ) * 2 ^ (max (-1074) (e - 52)) := by
      rw [natPow_mul_zpow rfl]
      exact zpow_le_zpow_right₀ (by norm_num) (by omega)
    exact hhigh.le.trans (mul_le_mul_of_nonneg_left hpow hd.le)
  · rcases le_or_gt (e - 52) (-1074) with hsmall | hlarge
    · exact .inr (max_eq_left hsmall)
    · refine .inl (le_significandAt q.den_pos ?_)
      rw [max_eq_right hlarge.le]
      rwa [natPow_mul_zpow (a := e) (by omega)]

theorem isSome_ofInt? {n : ℤ} (h : |n| < 2 ^ 1023) : (ofInt? n).isSome = true := by
  have hfinite : (ofInt n).isFinite = true := by
    apply isFinite_ofRat
    have hcast : ((|n| : ℤ) : ℚ) < ((2 ^ 1023 : ℤ) : ℚ) := Int.cast_lt.2 h
    rwa [Int.cast_abs, Int.cast_pow] at hcast
  unfold ofInt?
  dsimp only
  rw [if_pos hfinite]
  rfl

theorem isFinite_of_ofInt? {n : ℤ} {x : Binary64} (h : ofInt? n = some x) :
    x.isFinite = true := by
  unfold ofInt? at h
  dsimp only at h
  split at h
  next hfinite =>
    rw [Option.some_inj] at h
    rwa [← h]
  next => cases h

/-- Finite numbers are ordered as their values are. -/
theorem below_iff_of_finite {x y : Binary64} (hx : x.isFinite = true) (hy : y.isFinite = true) :
    x.below y = true ↔ x.value < y.value := by
  cases x with
  | finite =>
    cases y with
    | finite => simp [below]
    | nan => cases hy
    | infinite => cases hy
  | nan => cases hx
  | infinite => cases hx

end Binary64
end RoleMining
