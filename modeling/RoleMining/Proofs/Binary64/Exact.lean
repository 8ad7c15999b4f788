import RoleMining.Proofs.Binary64.Finite

/-!
# Integers without rounding

An integer below two to the power of 53 needs no rounding: its significand at the exponent that is
chosen for it is a whole number already. So sums and products of such integers are exact, as long as
they are below that bound themselves.
-/
namespace RoleMining

namespace Binary64

variable {m n : ℤ}

theorem power_eq (e : ℤ) : power e = 2 ^ e := by
  unfold power
  split_ifs with hsign
  · rw [zpow_toNat hsign, twoPower_eq]
  · rw [zpow_toNat_neg (by omega), twoPower_eq, one_div]

/-- Nothing is rounded when the quotient is a whole number at the exponent. -/
theorem significandAt_eq {k d s : ℕ} {e : ℤ} (hd : 0 < d) (h : (k : ℚ) = d * (s * 2 ^ e)) :
    significandAt k d e = s :=
  le_antisymm (significandAt_le hd h.le) (le_significandAt hd h.ge)

/-- A natural number below two to the power of 53 is a whole number at its exponent, and leaves
53 bits there. -/
theorem exists_significand {k : ℕ} (hk : k ≠ 0) (hlt : k < 2 ^ 53) : ∃ (s : ℕ) (e : ℤ),
    exponentFor k 1 = e ∧ (k : ℚ) = s * 2 ^ e ∧ s < 2 ^ 53 ∧ 2 ^ 52 ≤ s ∧ -52 ≤ e ∧ e ≤ 0 := by
  obtain ⟨top, ⟨hlow, hhigh⟩, hexponent⟩ := exponentFor_eq hk one_ne_zero
  rw [Nat.cast_one, one_mul] at hlow hhigh
  have htop : top ≤ 52 := by
    have hpow : (2 : ℚ) ^ top < 2 ^ (53 : ℤ) := hlow.trans_lt (by exact_mod_cast hlt)
    have := (zpow_lt_zpow_iff_right₀ (by norm_num)).1 hpow
    omega
  have hbottom : 0 ≤ top := by
    have hone : (1 : ℚ) ≤ k := by exact_mod_cast Nat.one_le_iff_ne_zero.2 hk
    have hpow : (2 : ℚ) ^ (0 : ℤ) < 2 ^ (top + 1) := by simpa using hone.trans_lt hhigh
    have := (zpow_lt_zpow_iff_right₀ (by norm_num)).1 hpow
    omega
  have hwhole : (k : ℚ) = ((k * 2 ^ (52 - top).toNat : ℕ) : ℚ) * 2 ^ (top - 52) := by
    rw [Nat.cast_mul, mul_assoc, natPow_mul_zpow (a := 0) (by omega), zpow_zero, mul_one]
  have hsignificand : ((k * 2 ^ (52 - top).toNat : ℕ) : ℚ) = k * 2 ^ (52 - top) := by
    rw [Nat.cast_mul, zpow_toNat (by omega)]
  refine ⟨_, _, hexponent.trans (max_eq_right (by omega)), hwhole, ?_, ?_, by omega, by omega⟩
  · have hpow : (k : ℚ) * 2 ^ (52 - top) < 2 ^ (53 : ℤ) := calc
      (k : ℚ) * 2 ^ (52 - top) < 2 ^ (top + 1) * 2 ^ (52 - top) :=
        mul_lt_mul_of_pos_right hhigh (by positivity)
      _ = 2 ^ (53 : ℤ) := by rw [← zpow_add₀ (by norm_num)]; congr 1; omega
    rw [← hsignificand] at hpow
    exact_mod_cast hpow
  · have hpow : (2 : ℚ) ^ (52 : ℤ) ≤ k * 2 ^ (52 - top) := calc
      (2 : ℚ) ^ (52 : ℤ) = 2 ^ top * 2 ^ (52 - top) := by
        rw [← zpow_add₀ (by norm_num)]; congr 1; omega
      _ ≤ k * 2 ^ (52 - top) := mul_le_mul_of_nonneg_right hlow (by positivity)
    rw [← hsignificand] at hpow
    exact_mod_cast hpow

/-- A number is the integer itself, and is not negative. -/
structure Exactly (n : ℤ) (x : Binary64) : Prop where
  isFinite : x.isFinite = true
  value : x.value = n
  isNegative : x.isNegative = false

/-- A small integer is a number. -/
theorem finite_ofInt (hlt : n.natAbs < 2 ^ 53) : (ofInt n).isFinite = true ∧ (ofInt n).value = n ∧
    (ofInt n).isNegative = decide (n < 0) := by
  by_cases hzero : n = 0
  · subst hzero
    exact ⟨rfl, by simp [value, zero, ofInt, ofRat, ofRatSigned], rfl⟩
  · obtain ⟨s, e, hexponent, hwhole, hhigh, hlow, hbottom, htop⟩ :=
      exists_significand (k := n.natAbs) (by omega) hlt
    have hnormal : IsNormalForm s e := by
      unfold IsNormalForm
      simp only [twoPower_eq]
      omega
    have hsignificand : significandAt n.natAbs 1 e = s :=
      significandAt_eq Nat.one_pos (by rw [Nat.cast_one, one_mul, hwhole])
    have hnumber : ofInt n = .finite (decide (n < 0)) s e hnormal := by
      change (if n = 0 then zero false else ofRounded (decide (n < 0))
        (significandAt n.natAbs 1 (exponentFor n.natAbs 1)) (exponentFor n.natAbs 1)) = _
      rw [if_neg hzero, hexponent, hsignificand]
      unfold ofRounded
      rw [if_neg (by rw [twoPower_eq]; omega)]
      simp [hnormal]
    rw [hnumber]
    refine ⟨rfl, ?_, rfl⟩
    rw [value, power_eq, ← hwhole, Nat.cast_natAbs]
    simp only [decide_eq_true_eq]
    split_ifs with hsign
    · rw [abs_of_neg hsign, Int.cast_neg, neg_neg]
    · rw [abs_of_nonneg (not_lt.1 hsign)]

theorem exactly_ofInt (hn : 0 ≤ n) (hlt : n < 2 ^ 53) : Exactly n (ofInt n) := by
  obtain ⟨hfinite, hvalue, hsign⟩ := finite_ofInt (n := n) (by omega)
  exact ⟨hfinite, hvalue, hsign.trans (decide_eq_false (not_lt.2 hn))⟩

section Operations

variable {x y : Binary64} (hx : Exactly m x) (hy : Exactly n y)
include hx hy

theorem Exactly.add : x + y = ofInt (m + n) := by
  obtain ⟨hx, hxvalue, hxsign⟩ := hx
  obtain ⟨hy, hyvalue, -⟩ := hy
  cases x with
  | finite =>
    cases y with
    | finite =>
      change ofRatSigned (Binary64.value _ + Binary64.value _)
        (Binary64.isNegative _ && Binary64.isNegative _) = ofRat _
      rw [hxvalue, hyvalue, hxsign, Bool.false_and, ← Int.cast_add]
      rfl
    | nan => cases hy
    | infinite => cases hy
  | nan => cases hx
  | infinite => cases hx

theorem Exactly.mul : x * y = ofInt (m * n) := by
  obtain ⟨hx, hxvalue, hxsign⟩ := hx
  obtain ⟨hy, hyvalue, hysign⟩ := hy
  cases x with
  | finite =>
    cases y with
    | finite =>
      change (if Binary64.value _ * Binary64.value _ = 0 then
        zero (Binary64.isNegative _ != Binary64.isNegative _)
        else ofRat (Binary64.value _ * Binary64.value _)) = ofRat _
      rw [hxvalue, hyvalue, hxsign, hysign, ← Int.cast_mul]
      split_ifs with hzero
      · rw [hzero]
        rfl
      · rfl
    | nan => cases hy
    | infinite => cases hy
  | nan => cases hx
  | infinite => cases hx

end Operations

theorem ofInt_add (hm : 0 ≤ m) (hn : 0 ≤ n) (hlt : m + n < 2 ^ 53) :
    ofInt m + ofInt n = ofInt (m + n) :=
  (exactly_ofInt hm (by omega)).add (exactly_ofInt hn (by omega))

end Binary64
end RoleMining
