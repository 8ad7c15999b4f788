import Mathlib.Data.Rat.Floor
import RoleMining.Binary64.Decimal
import RoleMining.Proofs.Binary64.Nearest

/-!
# Seventeen digits tell a number

The grid of seventeen digits has a point near every rational, closer than half a unit of its last
place, and half a unit of the seventeenth place is less than the 2 ^ 54th part of the number. So one
of the two neighbours on that grid reads back, if none on a coarser grid does, and the shortest
digits of a number are read as the number. What a decimal numeral is cut short for, because it is
far too large or too small, is what its value is rounded to.
-/
namespace RoleMining.Binary64

theorem tenPower_eq (k : ℕ) : tenPower k = 10 ^ k := rfl

theorem tenTo_eq (k : ℤ) : tenTo k = 10 ^ k := by
  unfold tenTo
  split_ifs with hsign
  · rw [tenPower_eq, Nat.cast_pow, Nat.cast_ofNat, ← zpow_natCast, Int.toNat_of_nonneg hsign]
  · rw [tenPower_eq, Nat.cast_pow, Nat.cast_ofNat, ← zpow_natCast,
      Int.toNat_of_nonneg (by omega), zpow_neg, one_div, inv_inv]

theorem tenTo_pos (k : ℤ) : 0 < tenTo k := by
  rw [tenTo_eq]
  positivity

/-! ### The leading place -/

/-- The number of digits tells between which powers of ten a natural number lies. -/
theorem length_toDigits_bounds {n : ℕ} (hn : 0 < n) :
    (10 : ℚ) ^ ((Nat.toDigits 10 n).length - 1 : ℤ) ≤ n ∧
      (n : ℚ) < 10 ^ ((Nat.toDigits 10 n).length : ℤ) := by
  have hpos : 0 < (Nat.toDigits 10 n).length := Nat.length_toDigits_pos
  have hhigh : n < 10 ^ (Nat.toDigits 10 n).length :=
    (Nat.length_toDigits_le_iff (by decide) hpos).1 le_rfl
  have hlow : 10 ^ ((Nat.toDigits 10 n).length - 1) ≤ n := by
    rcases Nat.eq_zero_or_pos ((Nat.toDigits 10 n).length - 1) with hone | hmore
    · rw [hone]
      exact hn
    · have hiff := Nat.length_toDigits_le_iff (n := n) (by decide : 1 < 10) hmore
      omega
  have hcast : ((Nat.toDigits 10 n).length - 1 : ℤ) = ((Nat.toDigits 10 n).length - 1 : ℕ) := by
    omega
  rw [hcast, zpow_natCast, zpow_natCast]
  exact ⟨by exact_mod_cast hlow, by exact_mod_cast hhigh⟩

theorem leadingPlace_bounds {q : ℚ} (hq : 0 < q) :
    10 ^ leadingPlace q ≤ q ∧ q < 10 ^ (leadingPlace q + 1) := by
  have hnum := num_eq_den_mul hq
  obtain ⟨hnlow, hnhigh⟩ := length_toDigits_bounds (Int.natAbs_pos.2 (Rat.num_pos.2 hq).ne')
  obtain ⟨hdlow, hdhigh⟩ := length_toDigits_bounds q.den_pos
  rw [hnum] at hnlow hnhigh
  unfold leadingPlace
  simp only [tenTo_eq]
  set a := ((Nat.toDigits 10 q.num.natAbs).length : ℤ)
  set b := ((Nat.toDigits 10 q.den).length : ℤ)
  have hlow : (10 : ℚ) ^ (a - b - 1) ≤ q := by
    refine le_of_mul_le_mul_left ?_ (by positivity : (0 : ℚ) < 10 ^ b)
    calc (10 : ℚ) ^ b * 10 ^ (a - b - 1) = 10 ^ (a - 1) := by
          rw [← zpow_add₀ (by norm_num)]; congr 1; omega
      _ ≤ q.den * q := hnlow
      _ ≤ 10 ^ b * q := mul_le_mul_of_nonneg_right hdhigh.le hq.le
  have hhigh : q < 10 ^ (a - b + 1) := by
    refine lt_of_mul_lt_mul_left ?_ (by positivity : (0 : ℚ) ≤ 10 ^ (b - 1))
    calc (10 : ℚ) ^ (b - 1) * q ≤ q.den * q := mul_le_mul_of_nonneg_right hdlow hq.le
      _ < 10 ^ a := hnhigh
      _ = 10 ^ (b - 1) * 10 ^ (a - b + 1) := by
          rw [← zpow_add₀ (by norm_num)]; congr 1; omega
  split_ifs with hreached
  · exact ⟨hreached, hhigh⟩
  · exact ⟨hlow, by rw [sub_add_cancel]; exact not_le.1 hreached⟩

/-! ### The digits of a number -/

theorem Digits.value_trim (fuel : ℕ) (d : Digits) : (d.trim fuel).value = d.value := by
  induction fuel generalizing d with
  | zero => rfl
  | succ fuel ih =>
    rw [trim]
    split_ifs with hzero
    · rw [ih]
      simp only [value, tenTo_eq]
      have hdigits : d.digits = d.digits / 10 * 10 := by omega
      rw [zpow_add_one₀ (by norm_num), mul_comm (10 ^ d.place : ℚ), ← mul_assoc]
      congr 1
      exact_mod_cast hdigits.symm
    · rfl

variable {x : Binary64} {q : ℚ} {place : ℤ}

theorem ofRat_of_onGrid? {d : Digits} (h : onGrid? x q place = some d) : ofRat d.value = x := by
  unfold onGrid? at h
  dsimp only at h
  split_ifs at h with hboth
  all_goals
    cases h
    simp_all

/-- A neighbour on the grid that reads back is enough. -/
theorem exists_onGrid? {d : Digits} (hd : d.digits = (q / tenTo place).floor.toNat ∨
    d.digits = (q / tenTo place).floor.toNat + 1) (hplace : d.place = place)
    (h : ofRat d.value = x) : ∃ d', onGrid? x q place = some d' := by
  obtain ⟨digits, place⟩ := d
  subst hplace
  unfold onGrid?
  dsimp only at hd ⊢
  rcases hd with rfl | rfl <;> simp only [h, beq_self_eq_true, Bool.true_and, Bool.and_true] <;>
    split_ifs <;> exact ⟨_, rfl⟩

/-- One of the two neighbours on a grid is at most half a step away. -/
theorem exists_neighbour (hq : 0 < q) (place : ℤ) : ∃ d : Digits, d.place = place ∧
    (d.digits = (q / tenTo place).floor.toNat ∨ d.digits = (q / tenTo place).floor.toNat + 1) ∧
      |d.value - q| * 2 ≤ 10 ^ place := by
  set steps := q / tenTo place with hsteps
  have hunit : (0 : ℚ) < 10 ^ place := by positivity
  have hvalue : q = steps * 10 ^ place := by
    rw [hsteps, tenTo_eq, div_mul_cancel₀ _ hunit.ne']
  have hfloor : ((steps.floor.toNat : ℕ) : ℚ) = (⌊steps⌋ : ℤ) := by
    have hnonneg : 0 ≤ ⌊steps⌋ := Int.floor_nonneg.2 (div_nonneg hq.le (tenTo_pos place).le)
    exact_mod_cast Int.toNat_of_nonneg hnonneg
  have hbelow := Int.floor_le steps
  have habove := Int.lt_floor_add_one steps
  have hdistance (k : ℕ) : |Digits.value ⟨k, place⟩ - q| * 2 = |(k - steps) * 2| * 10 ^ place := by
    rw [Digits.value, tenTo_eq, hvalue, ← sub_mul, abs_mul, abs_mul, abs_of_pos hunit, abs_two]
    ring
  rcases le_total ((steps - ⌊steps⌋) * 2) 1 with hnear | hfar
  · refine ⟨⟨steps.floor.toNat, place⟩, rfl, .inl rfl, ?_⟩
    rw [hdistance, hfloor]
    refine mul_le_of_le_one_left hunit.le (abs_le.2 ⟨by linarith, by linarith⟩)
  · refine ⟨⟨steps.floor.toNat + 1, place⟩, rfl, .inr rfl, ?_⟩
    rw [hdistance, Nat.cast_add_one, hfloor]
    refine mul_le_of_le_one_left hunit.le (abs_le.2 ⟨by linarith, by linarith⟩)

section Shortest

variable {m : ℕ} {e : ℤ}

theorem value_finite (normal : IsNormalForm m e) :
    (Binary64.finite false m e normal).value = m * 2 ^ e := by
  rw [value, power_eq]
  rfl

/-- The grid of seventeen digits has a neighbour that reads back. -/
theorem ofRat_neighbour (normal : IsNormalForm m e) (hm : 0 < m) {d : Digits}
    (h : |d.value - m * 2 ^ e| * 2 ≤ 10 ^ (leadingPlace (m * 2 ^ e) - 16)) :
    ofRat d.value = .finite false m e normal := by
  have hone : (1 : ℚ) ≤ m := by exact_mod_cast hm
  have hq : (0 : ℚ) < m * 2 ^ e := by positivity
  have hleading := (leadingPlace_bounds hq).1
  have hunit : (10 : ℚ) ^ leadingPlace (m * 2 ^ e) =
      10 ^ (leadingPlace (m * 2 ^ e) - 16) * 10 ^ 16 := by
    rw [← zpow_natCast (10 : ℚ) 16, ← zpow_add₀ (by norm_num)]
    congr 1
    omega
  have hnear : |d.value - m * 2 ^ e| * 2 ^ 54 < m * 2 ^ e := by
    rw [hunit] at hleading
    norm_num at hleading ⊢
    linarith
  have hpos : 0 < d.value := by
    linarith [(abs_lt.1 (lt_div_iff₀ (by positivity) |>.2 hnear)).1]
  rw [ofRat_eq_ofSize hpos]
  exact ofSize_eq_of_near normal hm hnear false

/-- The shortest digits of a number are read as the number. -/
theorem ofRat_shortestDigits (normal : IsNormalForm m e) (hm : 0 < m) :
    ofRat (shortestDigits (.finite false m e normal)).value = .finite false m e normal := by
  have hone : (1 : ℚ) ≤ m := by exact_mod_cast hm
  have hq : (0 : ℚ) < m * 2 ^ e := by positivity
  obtain ⟨d, hplace, hd, hnear⟩ := exists_neighbour hq (leadingPlace (m * 2 ^ e) - 16)
  obtain ⟨last, hlast⟩ :=
    exists_onGrid? hd hplace (ofRat_neighbour normal hm hnear)
  unfold shortestDigits
  rw [value_finite]
  dsimp only
  set search := fun extra : ℕ =>
    onGrid? (.finite false m e normal) (m * 2 ^ e) (leadingPlace (m * 2 ^ e) - extra)
  have hsome : ((List.range 17).findSome? search).isSome = true := by
    rw [List.findSome?_isSome_iff]
    exact ⟨16, by decide, by simp [search, hlast]⟩
  obtain ⟨found, hfound⟩ := Option.isSome_iff_exists.1 hsome
  obtain ⟨extra, -, hextra⟩ := List.exists_of_findSome?_eq_some hfound
  rw [hfound, Option.getD_some]
  exact ofRat_of_onGrid? hextra

theorem value_shortestDigits_ne_zero (normal : IsNormalForm m e) (hm : 0 < m) :
    (shortestDigits (.finite false m e normal)).value ≠ 0 := by
  intro hzero
  have hread := ofRat_shortestDigits normal hm
  rw [hzero] at hread
  have hsignificand : (0 : ℕ) = m := by injection hread
  omega

end Shortest

/-! ### Numerals -/

/-- A numeral is read as the rounding of its exact value. -/
theorem ofDecimal_eq {n : ℕ} (hn : 0 < n) (negative : Bool) (shift : ℤ) :
    ofDecimal negative n shift = ofSize negative (n * 10 ^ shift) := by
  have hone : (1 : ℚ) ≤ n := by exact_mod_cast hn
  have hq : (0 : ℚ) < n * 10 ^ shift := by positivity
  have hsize : (if 0 ≤ shift then (n : ℚ) * (tenPower shift.toNat : ℕ)
      else (n : ℚ) / (tenPower (-shift).toNat : ℕ)) = n * 10 ^ shift := by
    rw [← tenTo_eq, tenTo]
    split_ifs
    · rfl
    · rw [one_div, div_eq_mul_inv]
  obtain ⟨hlow, hhigh⟩ := length_toDigits_bounds hn
  unfold ofDecimal
  rw [if_neg hn.ne']
  dsimp only
  rw [hsize, ofRatSigned_eq_ofSize hq]
  split_ifs with hlarge hsmall
  · refine (ofSize_eq_infinite ?_ negative).symm
    have hends : 2 ^ 1024 ≤ 10 ^ 310 := by decide +kernel
    calc (2 : ℚ) ^ (1024 : ℤ) ≤ 10 ^ (310 : ℤ) := by exact_mod_cast hends
      _ ≤ 10 ^ ((Nat.toDigits 10 n).length - 1 + shift : ℤ) :=
          zpow_le_zpow_right₀ (by norm_num) (by omega)
      _ ≤ n * 10 ^ shift := by
          rw [zpow_add₀ (by norm_num)]
          exact mul_le_mul_of_nonneg_right hlow (by positivity)
  · refine (ofSize_eq_zero hq ?_ negative).symm
    have hends : 2 ^ 1075 ≤ 10 ^ 331 := by decide +kernel
    calc n * 10 ^ shift < (10 : ℚ) ^ ((Nat.toDigits 10 n).length + shift : ℤ) := by
          rw [zpow_add₀ (by norm_num)]
          exact mul_lt_mul_of_pos_right hhigh (by positivity)
      _ ≤ 10 ^ (-331 : ℤ) := zpow_le_zpow_right₀ (by norm_num) (by omega)
      _ ≤ 2 ^ (-1075 : ℤ) := by
          rw [zpow_neg, zpow_neg]
          exact inv_anti₀ (by positivity) (by exact_mod_cast hends)
  · rfl

/-- A numeral with the value of the shortest digits is read as the number, also with a sign. -/
theorem ofDecimal_eq_of_value {m : ℕ} {e : ℤ} {normal : IsNormalForm m e} (hm : 0 < m)
    {n : ℕ} {shift : ℤ}
    (h : n * 10 ^ shift = (shortestDigits (.finite false m e normal)).value) (negative : Bool) :
    ofDecimal negative n shift = .finite negative m e normal := by
  have hread := ofRat_shortestDigits normal hm
  have hn : 0 < n := by
    refine Nat.pos_of_ne_zero fun hzero => value_shortestDigits_ne_zero normal hm ?_
    rw [← h, hzero, Nat.cast_zero, zero_mul]
  rw [← h] at hread
  have hone : (1 : ℚ) ≤ n := by exact_mod_cast hn
  rw [ofRat_eq_ofSize (by positivity)] at hread
  rw [ofDecimal_eq hn]
  exact ofSize_of_finite hread negative

end RoleMining.Binary64
