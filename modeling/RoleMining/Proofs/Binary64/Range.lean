import RoleMining.Proofs.Binary64.Finite

/-!
# The range of doubles

A larger integer has a larger exponent, or the same exponent and a larger significand. So an integer
is in range as soon as some integer beyond it is.
-/
namespace RoleMining

theorem nearestEven_mono {n n' d : ℕ} (h : n ≤ n') :
    nearestEven n d ≤ nearestEven n' d := by
  have hwhole : n / d ≤ n' / d := Nat.div_le_div_right h
  have hsplit := Nat.div_add_mod n d
  have hsplit' := Nat.div_add_mod n' d
  unfold nearestEven
  dsimp only
  rcases Nat.lt_or_eq_of_le hwhole with hlt | heq
  · split_ifs <;> omega
  · have hrest : n % d ≤ n' % d := by
      rw [heq] at hsplit
      omega
    rw [heq]
    split_ifs <;> omega

namespace Binary64

theorem significandAt_mono {n n' d : ℕ} (h : n ≤ n') (e : ℤ) :
    significandAt n d e ≤ significandAt n' d e := by
  unfold significandAt
  split_ifs
  · exact nearestEven_mono h
  · exact nearestEven_mono (Nat.mul_le_mul_right _ h)

theorem exponentFor_mono {n n' d : ℕ} (hn : n ≠ 0) (hd : d ≠ 0) (h : n ≤ n') :
    exponentFor n d ≤ exponentFor n' d := by
  obtain ⟨e, ⟨hlow, -⟩, he⟩ := exponentFor_eq hn hd
  obtain ⟨e', ⟨-, hhigh⟩, he'⟩ := exponentFor_eq (n := n') (by omega) hd
  have hpow : (2 : ℚ) ^ e < 2 ^ (e' + 1) := by
    have hle : (n : ℚ) ≤ n' := by exact_mod_cast h
    have hdpos : (0 : ℚ) < d := by exact_mod_cast Nat.pos_of_ne_zero hd
    exact lt_of_mul_lt_mul_left (hlow.trans_lt (hle.trans_lt hhigh)) hdpos.le
  have hlt := (zpow_lt_zpow_iff_right₀ (by norm_num : (1 : ℚ) < 2)).1 hpow
  omega

/-- A rounded number is finite unless its exponent is too large, or is the largest and carries. -/
theorem isFinite_ofRounded_iff {negative : Bool} {significand : ℕ} {exponent : ℤ}
    (hlow : -1074 ≤ exponent) (hfits : significand ≤ 2 ^ 53)
    (hfull : 2 ^ 52 ≤ significand ∨ exponent = -1074) :
    (ofRounded negative significand exponent).isFinite = true ↔
      exponent ≤ 970 ∨ exponent = 971 ∧ significand < 2 ^ 53 := by
  have hfinite (s : ℕ) (e : ℤ) : (if normal : IsNormalForm s e then
      Binary64.finite negative s e normal else .infinite negative).isFinite = true ↔
        IsNormalForm s e := by
    split_ifs with hnormal <;> simp [isFinite, hnormal]
  unfold ofRounded
  by_cases hcarry : significand = twoPower 53
  · rw [if_pos hcarry]
    dsimp only
    rw [hfinite, IsNormalForm]
    simp only [twoPower_eq] at hcarry ⊢
    omega
  · rw [if_neg hcarry]
    dsimp only
    rw [hfinite, IsNormalForm]
    simp only [twoPower_eq] at hcarry ⊢
    omega

/-- When an integer is in range: the conditions on its exponent and significand. -/
theorem isFinite_ofInt_iff {n : ℕ} (hn : n ≠ 0) : (ofInt n).isFinite = true ↔
    exponentFor n 1 ≤ 970 ∨
      exponentFor n 1 = 971 ∧ significandAt n 1 (exponentFor n 1) < 2 ^ 53 := by
  obtain ⟨e, ⟨hlow, hhigh⟩, hexponent⟩ := exponentFor_eq hn one_ne_zero
  rw [Nat.cast_one, one_mul] at hlow hhigh
  have hbottom : 0 ≤ e := by
    have hone : (1 : ℚ) ≤ n := by exact_mod_cast Nat.one_le_iff_ne_zero.2 hn
    have hpow : (2 : ℚ) ^ (0 : ℤ) < 2 ^ (e + 1) := by simpa using hone.trans_lt hhigh
    have := (zpow_lt_zpow_iff_right₀ (by norm_num)).1 hpow
    omega
  have he : exponentFor n 1 = e - 52 := hexponent.trans (max_eq_right (by omega))
  unfold ofInt ofRat ofRatSigned
  simp only [Int.cast_natCast, Rat.num_natCast, Rat.den_natCast, Int.natAbs_natCast]
  rw [if_neg (by exact_mod_cast hn), isFinite_ofRounded_iff (by omega)]
  · rw [he]
    refine significandAt_le Nat.one_pos ?_
    rw [Nat.cast_one, one_mul, natPow_mul_zpow (a := e + 1) (by omega)]
    exact hhigh.le
  · rw [he]
    refine .inl (le_significandAt Nat.one_pos ?_)
    rw [Nat.cast_one, one_mul, natPow_mul_zpow (a := e) (by omega)]
    exact hlow

/-- What is smaller than an integer in range is in range. -/
theorem isSome_ofInt?_of_le {m n : ℤ} (hm : 0 ≤ m) (hmn : m ≤ n)
    (hn : (ofInt? n).isSome = true) : (ofInt? m).isSome = true := by
  have hsome (k : ℤ) : (ofInt? k).isSome = true ↔ (ofInt k).isFinite = true := by
    unfold ofInt?
    dsimp only
    split_ifs with hfinite <;> simp [hfinite]
  rw [hsome] at hn ⊢
  obtain ⟨m, rfl⟩ := Int.eq_ofNat_of_zero_le hm
  obtain ⟨n, rfl⟩ := Int.eq_ofNat_of_zero_le (hm.trans hmn)
  rcases Nat.eq_zero_or_pos m with rfl | hpos
  · rfl
  rw [isFinite_ofInt_iff (by omega)] at hn ⊢
  have hexponent := exponentFor_mono hpos.ne' one_ne_zero (Int.ofNat_le.1 hmn)
  have hsignificand := significandAt_mono (d := 1) (Int.ofNat_le.1 hmn) (exponentFor m 1)
  rcases hn with hsmall | ⟨hlast, hfits⟩
  · exact .inl (hexponent.trans hsmall)
  · rcases lt_or_eq_of_le hexponent with hlt | heq
    · exact .inl (by omega)
    · exact .inr ⟨heq.trans hlast, hsignificand.trans_lt (heq ▸ hfits)⟩

end Binary64
end RoleMining
