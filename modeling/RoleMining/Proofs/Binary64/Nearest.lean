import Mathlib.Tactic.Ring
import RoleMining.Proofs.Binary64.Exact

/-!
# Which number is nearest

What differs from a double by less than the 2 ^ 54th part of it is rounded to it. The bound is the
same for every double: half a step of the significand is at least that part of the number, and below
a power of two, where the steps are half as wide, the number is as small as its significand allows.
Beyond the two ends of the range a rational is rounded to infinity or to zero.
-/
namespace RoleMining

theorem nearestEven_eq {n d m : ℕ} (hlow : 2 * (m * d) < 2 * n + d)
    (hhigh : 2 * n < 2 * (m * d) + d) : nearestEven n d = m := by
  have hd : 0 < d := by omega
  have hle : n / d ≤ m := by
    refine Nat.lt_add_one_iff.1 ((Nat.div_lt_iff_lt_mul hd).2 ?_)
    rw [Nat.succ_mul]
    omega
  have hge : m ≤ n / d + 1 := by
    refine Nat.lt_add_one_iff.1 (Nat.lt_of_mul_lt_mul_right (a := d) ?_)
    have hlt := Nat.lt_mul_div_succ n hd
    rw [Nat.mul_comm d] at hlt
    rw [Nat.succ_mul]
    omega
  have hsplit := Nat.div_add_mod n d
  unfold nearestEven
  dsimp only
  rcases Nat.lt_or_eq_of_le hle with hlt | heq
  · obtain rfl : m = n / d + 1 := by omega
    rw [Nat.add_mul, Nat.one_mul, Nat.mul_comm (n / d)] at hlow
    rw [if_neg (by omega), if_pos (by omega)]
  · rw [heq, Nat.mul_comm d] at hsplit
    rw [if_pos (by omega), heq]

namespace Binary64

/-! ### The rounding of a positive rational -/

/-- The rounding of a positive rational that carries a sign. -/
def ofSize (negative : Bool) (q : ℚ) : Binary64 :=
  ofRounded negative (significandAt q.num.natAbs q.den (exponentFor q.num.natAbs q.den))
    (exponentFor q.num.natAbs q.den)

variable {q : ℚ} {negative : Bool}

theorem ofRatSigned_eq_ofSize (hq : 0 < q) (negative : Bool) :
    ofRatSigned (if negative then -q else q) negative = ofSize negative q := by
  have hnum : 0 < q.num := Rat.num_pos.2 hq
  unfold ofRatSigned ofSize
  cases negative
  · rw [if_neg Bool.false_ne_true, if_neg hnum.ne', decide_eq_false hnum.not_gt]
  · rw [if_pos rfl, Rat.num_neg_eq_neg_num, Rat.den_neg_eq_den, Int.natAbs_neg,
      if_neg (by omega), decide_eq_true (by omega)]

theorem ofRat_eq_ofSize (hq : 0 < q) : ofRat q = ofSize false q := ofRatSigned_eq_ofSize hq false

theorem num_eq_den_mul (hq : 0 < q) : (q.num.natAbs : ℚ) = q.den * q := by
  rw [Nat.cast_natAbs, abs_of_pos (Rat.num_pos.2 hq), Rat.den_mul_eq_num]

theorem exists_leading_power (hq : 0 < q) : ∃ t : ℤ, 2 ^ t ≤ q ∧ q < 2 ^ (t + 1) ∧
    exponentFor q.num.natAbs q.den = max (-1074) (t - 52) := by
  have hnum : q.num.natAbs ≠ 0 := Int.natAbs_ne_zero.2 (Rat.num_pos.2 hq).ne'
  have hden : (0 : ℚ) < q.den := by exact_mod_cast q.den_pos
  obtain ⟨t, ⟨hlow, hhigh⟩, hexponent⟩ := exponentFor_eq hnum q.den_ne_zero
  rw [num_eq_den_mul hq] at hlow hhigh
  exact ⟨t, le_of_mul_le_mul_left hlow hden, lt_of_mul_lt_mul_left hhigh hden.le, hexponent⟩

/-- A significand less than half a step away is the rounded one. -/
theorem significandAt_eq_of_near {s : ℕ} {e : ℤ} (hq : 0 < q)
    (h : |q - s * 2 ^ e| * 2 < 2 ^ e) : significandAt q.num.natAbs q.den e = s := by
  have hden : (0 : ℚ) < q.den := by exact_mod_cast q.den_pos
  have hnum := num_eq_den_mul hq
  obtain ⟨hlow, hhigh⟩ := abs_lt.1 (lt_div_iff₀ two_pos |>.2 h)
  have hlow' : 2 * (s * (q.den * 2 ^ e)) < 2 * (q.num.natAbs : ℚ) + q.den * 2 ^ e := by
    rw [hnum]
    linarith [mul_lt_mul_of_pos_left hlow hden]
  have hhigh' : 2 * (q.num.natAbs : ℚ) < 2 * (s * (q.den * 2 ^ e)) + q.den * 2 ^ e := by
    rw [hnum]
    linarith [mul_lt_mul_of_pos_left hhigh hden]
  unfold significandAt
  split_ifs with hsign
  · rw [zpow_toNat hsign] at hlow' hhigh'
    rw [twoPower_eq]
    exact nearestEven_eq (by exact_mod_cast hlow') (by exact_mod_cast hhigh')
  · rw [zpow_toNat_neg (by omega)] at hlow' hhigh'
    rw [twoPower_eq]
    have hscale : (0 : ℚ) < ((2 ^ (-e).toNat : ℕ) : ℚ) := by positivity
    have hlow := mul_lt_mul_of_pos_right hlow' hscale
    have hhigh := mul_lt_mul_of_pos_right hhigh' hscale
    simp only [add_mul, mul_assoc, inv_mul_cancel₀ hscale.ne', mul_one] at hlow hhigh
    exact nearestEven_eq (by exact_mod_cast hlow) (by exact_mod_cast hhigh)

theorem ofRounded_of_normal {s : ℕ} {e : ℤ} (h : IsNormalForm s e) :
    ofRounded negative s e = .finite negative s e h := by
  have hcarry : s ≠ twoPower 53 := h.1.ne
  unfold ofRounded
  rw [if_neg hcarry]
  exact dif_pos h

/-- A significand that is rounded up to 54 bits carries into the exponent. -/
theorem ofRounded_of_carry {e : ℤ} (h : IsNormalForm (2 ^ 52) e) :
    ofRounded negative (2 ^ 53) (e - 1) = .finite negative (2 ^ 52) e h := by
  have he : e - 1 + 1 = e := sub_add_cancel e 1
  unfold ofRounded
  rw [if_pos (twoPower_eq 53).symm]
  dsimp only
  rw [dif_pos (by rwa [twoPower_eq, he])]
  simp only [twoPower_eq, he]

/-- The sign takes no part in the rounding. -/
theorem ofSize_of_finite {m : ℕ} {e : ℤ} {h : IsNormalForm m e}
    (hfinite : ofSize false q = .finite false m e h) (negative : Bool) :
    ofSize negative q = .finite negative m e h := by
  unfold ofSize ofRounded at hfinite ⊢
  dsimp only at hfinite ⊢
  split_ifs at hfinite ⊢
  all_goals
    cases hfinite
    rfl

/-! ### The nearest number -/

/-- The exponent of a number of 53 bits, or of fewer bits at the least exponent. -/
theorem exponentFor_eq_of_bounds {e : ℤ} (hq : 0 < q) (he : -1074 ≤ e)
    (hlow : 2 ^ (e + 52) ≤ q ∨ e = -1074) (hhigh : q < 2 ^ (e + 53)) :
    exponentFor q.num.natAbs q.den = e := by
  obtain ⟨t, htlow, hthigh, hexponent⟩ := exists_leading_power hq
  have hle : t < e + 53 :=
    (zpow_lt_zpow_iff_right₀ one_lt_two).1 (htlow.trans_lt hhigh)
  rw [hexponent]
  rcases hlow with hlow | rfl
  · have hge : e + 52 < t + 1 :=
      (zpow_lt_zpow_iff_right₀ one_lt_two).1 (hlow.trans_lt hthigh)
    omega
  · omega

/-- Just below a power of two, where the steps are half as wide, the significand is rounded up to
the power. -/
theorem ofSize_eq_of_below_power {e : ℤ} (hnormal : IsNormalForm (2 ^ 52) e) (he : e ≠ -1074)
    (hlow : (2 ^ 52 - 1 / 4) * 2 ^ e < q) (hhigh : q < 2 ^ 52 * 2 ^ e) (negative : Bool) :
    ofSize negative q = .finite negative (2 ^ 52) e hnormal := by
  have hleast : -1074 ≤ e := hnormal.2.1
  have hstep : (0 : ℚ) < 2 ^ e := by positivity
  have hhalfStep : (2 : ℚ) ^ (e - 1) = 2 ^ e / 2 := by
    rw [zpow_sub_one₀ two_ne_zero, div_eq_mul_inv]
  have hq : 0 < q := by linarith
  have hexponent : exponentFor q.num.natAbs q.den = e - 1 := by
    refine exponentFor_eq_of_bounds hq (by omega) (.inl ?_) ?_
    · rw [zpow_add₀ two_ne_zero, hhalfStep]
      norm_num at hlow ⊢
      linarith
    · rw [zpow_add₀ two_ne_zero, hhalfStep]
      norm_num at hhigh ⊢
      linarith
  have hsignificand : significandAt q.num.natAbs q.den (e - 1) = 2 ^ 53 := by
    refine significandAt_eq_of_near hq ?_
    have hsame : ((2 ^ 53 : ℕ) : ℚ) * (2 ^ e / 2) = 2 ^ 52 * 2 ^ e := by
      push_cast
      ring
    rw [hhalfStep, hsame, abs_of_neg (by linarith)]
    linarith
  rw [ofSize, hexponent, hsignificand]
  exact ofRounded_of_carry hnormal

/-- What differs from a number by less than the 2 ^ 54th part of it is rounded to it. -/
theorem ofSize_eq_of_near {m : ℕ} {e : ℤ} (hnormal : IsNormalForm m e) (hm : 0 < m)
    (h : |q - m * 2 ^ e| * 2 ^ 54 < m * 2 ^ e) (negative : Bool) :
    ofSize negative q = .finite negative m e hnormal := by
  obtain ⟨hbits, hleast, -, hfull⟩ := id hnormal
  rw [twoPower_eq] at hbits hfull
  have hstep : (0 : ℚ) < 2 ^ e := by positivity
  have hleastBit : 1 * (2 : ℚ) ^ e ≤ m * 2 ^ e :=
    mul_le_mul_of_nonneg_right (by exact_mod_cast hm) hstep.le
  have hmost : (m : ℚ) * 2 ^ e ≤ (2 ^ 53 - 1) * 2 ^ e :=
    mul_le_mul_of_nonneg_right (le_sub_iff_add_le.2 (by exact_mod_cast hbits)) hstep.le
  obtain ⟨hleft, hright⟩ := abs_lt.1 (lt_div_iff₀ (by positivity) |>.2 h)
  have hq : 0 < q := by linarith
  have hhigh : q < 2 ^ (e + 53) := by
    rw [zpow_add₀ two_ne_zero, mul_comm]
    norm_num at hmost hright ⊢
    linarith
  -- a rational just below the least number of an exponent has a leading power one lower
  by_cases hlow : 2 ^ (e + 52) ≤ q ∨ e = -1074
  · rw [ofSize, exponentFor_eq_of_bounds hq hleast hlow hhigh,
      significandAt_eq_of_near hq (by linarith)]
    exact ofRounded_of_normal hnormal
  · rw [not_or, not_le, zpow_add₀ two_ne_zero, mul_comm] at hlow
    obtain ⟨hlow, hbottom⟩ := hlow
    obtain rfl : m = 2 ^ 52 := by
      refine le_antisymm (Nat.lt_add_one_iff.1 ?_) (hfull.resolve_right hbottom)
      have hlt : (m : ℚ) * 2 ^ e < (2 ^ 52 + 1 : ℕ) * 2 ^ e := by
        push_cast
        norm_num at hlow hleft hmost ⊢
        linarith
      exact_mod_cast lt_of_mul_lt_mul_right hlt hstep.le
    refine ofSize_eq_of_below_power hnormal hbottom ?_ (by exact_mod_cast hlow) negative
    push_cast at hleft
    linarith

/-! ### The two ends -/

theorem ofSize_eq_infinite (h : 2 ^ (1024 : ℤ) ≤ q) (negative : Bool) :
    ofSize negative q = .infinite negative := by
  have hq : 0 < q := lt_of_lt_of_le (by positivity) h
  obtain ⟨t, -, hhigh, hexponent⟩ := exists_leading_power hq
  have ht : (1024 : ℤ) < t + 1 := (zpow_lt_zpow_iff_right₀ one_lt_two).1 (h.trans_lt hhigh)
  unfold ofSize ofRounded
  split
  next s e hcarry =>
  have he : 971 < e := by
    split_ifs at hcarry <;> cases hcarry <;> omega
  exact dif_neg fun hnormal => absurd hnormal.2.2.1 (by omega)

theorem ofSize_eq_zero (hq : 0 < q) (h : q < 2 ^ (-1075 : ℤ)) (negative : Bool) :
    ofSize negative q = zero negative := by
  have hexponent : exponentFor q.num.natAbs q.den = -1074 :=
    exponentFor_eq_of_bounds hq le_rfl (.inr rfl)
      (h.trans_le (zpow_le_zpow_right₀ one_le_two (by omega)))
  have hsignificand : significandAt q.num.natAbs q.den (-1074) = 0 := by
    refine significandAt_eq_of_near hq ?_
    rw [Nat.cast_zero, zero_mul, sub_zero, abs_of_pos hq]
    calc q * 2 < 2 ^ (-1075 : ℤ) * 2 := mul_lt_mul_of_pos_right h two_pos
      _ = 2 ^ (-1074 : ℤ) := by rw [← zpow_add_one₀ two_ne_zero]; rfl
  rw [ofSize, hexponent, hsignificand]
  exact ofRounded_of_normal _

end Binary64
end RoleMining
