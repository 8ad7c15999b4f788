import Mathlib.Algebra.BigOperators.Ring.Finset
import Mathlib.Algebra.Order.BigOperators.Group.Multiset
import RoleMining.Arithmetic
import RoleMining.Proofs.Binary64.Nearest

/-!
# Sums in any order

A sum from left to right and a sum in pairs of sums make the same additions in different orders.
What holds of every way to add up some numbers is proved once: doubles of non-negative integers add
up exactly as long as the sum is below two to the power of 53, and then the order does not matter.
The order does matter for how large the rounded sums can become. In pairs of sums, adding as many
numbers again at most doubles a bound, and a power of two stays one when it is rounded.
-/
namespace RoleMining

namespace Arithmetic

variable {α : Type} [Arithmetic α]

/-- A number that some numbers come to in some order of additions. -/
inductive IsSumOf : α → Multiset α → Prop
  | zero : IsSumOf (ofInt 0) 0
  | term (x : α) : IsSumOf x {x}
  | add {x y : α} {s t : Multiset α} : IsSumOf x s → IsSumOf y t → IsSumOf (x + y) (s + t)

theorem isSumOf_foldl {x : α} {s : Multiset α} (h : IsSumOf x s) (xs : List α) :
    IsSumOf (xs.foldl (· + ·) x) (s + xs) := by
  induction xs generalizing x s with
  | nil => simpa using h
  | cons y ys ih =>
    rw [← Multiset.cons_coe, ← Multiset.singleton_add, ← add_assoc]
    exact ih (h.add (.term y))

theorem isSumOf_sum (xs : List α) : IsSumOf (sum xs) xs := by
  simpa [sum] using isSumOf_foldl .zero xs

namespace Lanes

/-- Each of eight numbers is a sum of its own terms. -/
structure AreSumsOf (x : Lanes α) (s : Lanes (Multiset α)) : Prop where
  a : IsSumOf x.a s.a
  b : IsSumOf x.b s.b
  c : IsSumOf x.c s.c
  d : IsSumOf x.d s.d
  e : IsSumOf x.e s.e
  f : IsSumOf x.f s.f
  g : IsSumOf x.g s.g
  h : IsSumOf x.h s.h

variable {x y : Lanes α} {s t : Lanes (Multiset α)}

theorem AreSumsOf.add (hx : x.AreSumsOf s) (hy : y.AreSumsOf t) :
    (x.add y).AreSumsOf (s.add t) where
  a := hx.a.add hy.a
  b := hx.b.add hy.b
  c := hx.c.add hy.c
  d := hx.d.add hy.d
  e := hx.e.add hy.e
  f := hx.f.add hy.f
  g := hx.g.add hy.g
  h := hx.h.add hy.h

theorem AreSumsOf.joined (h : x.AreSumsOf s) : IsSumOf x.joined s.joined :=
  ((h.a.add h.b).add (h.c.add h.d)).add ((h.e.add h.f).add (h.g.add h.h))

/-- Each number as its only term. -/
def terms (x : Lanes α) : Lanes (Multiset α) :=
  ⟨{x.a}, {x.b}, {x.c}, {x.d}, {x.e}, {x.f}, {x.g}, {x.h}⟩

theorem areSumsOf_terms (x : Lanes α) : x.AreSumsOf x.terms :=
  ⟨.term _, .term _, .term _, .term _, .term _, .term _, .term _, .term _⟩

omit [Arithmetic α] in
theorem joined_terms_add (a b c d e f g h : α) (rest : List α) :
    (terms ⟨a, b, c, d, e, f, g, h⟩).joined + ↑rest =
      ((a :: b :: c :: d :: e :: f :: g :: h :: rest : List α) : Multiset α) := by
  simp only [joined, terms, ← Multiset.cons_coe, ← Multiset.singleton_add, add_assoc]

omit [Arithmetic α] in
theorem joined_add (s t : Lanes (Multiset α)) : (s.add t).joined = s.joined + t.joined := by
  simp only [add, joined]
  ac_rfl

theorem isSumOf_sumOnto (hx : x.AreSumsOf s) (xs : List α) :
    IsSumOf (x.sumOnto xs) (s.joined + xs) := by
  fun_induction sumOnto x xs generalizing s with
  | case1 x a b c d e f g h rest ih =>
    have hsum := ih (hx.add (areSumsOf_terms ⟨a, b, c, d, e, f, g, h⟩))
    rwa [joined_add, add_assoc, joined_terms_add] at hsum
  | case2 x rest => exact isSumOf_foldl hx.joined rest

end Lanes

theorem isSumOf_blockSum (xs : List α) : IsSumOf (blockSum xs) xs := by
  unfold blockSum
  split
  · rw [← Lanes.joined_terms_add]
    exact Lanes.isSumOf_sumOnto (Lanes.areSumsOf_terms _) _
  · exact isSumOf_sum xs

theorem isSumOf_pairwiseSum (xs : List α) : IsSumOf (pairwiseSum xs) xs := by
  fun_induction pairwiseSum xs with
  | case1 xs => exact isSumOf_blockSum xs
  | case2 xs _ half hfirst hsecond =>
    have hsum := hfirst.add hsecond
    rwa [Multiset.coe_add, List.take_append_drop] at hsum

end Arithmetic

open Arithmetic

namespace Binary64

/-! ### Exact sums -/

/-- Doubles of natural numbers add up to the double of their sum, in whatever order, as long as it
is small enough to be exact. -/
theorem exact_of_isSumOf {x : Binary64} {s : Multiset Binary64} (h : IsSumOf x s)
    (hterms : ∀ y ∈ s, ∃ n : ℕ, n < 2 ^ 53 ∧ y = ofInt n) (hlt : (s.map value).sum < 2 ^ 53) :
    ∃ n : ℕ, x = ofInt n ∧ (n : ℚ) = (s.map value).sum := by
  have hnonneg {s : Multiset Binary64} (hterms : ∀ y ∈ s, ∃ n : ℕ, n < 2 ^ 53 ∧ y = ofInt n) :
      0 ≤ (s.map value).sum := by
    refine Multiset.sum_nonneg fun q hq => ?_
    obtain ⟨y, hy, rfl⟩ := Multiset.mem_map.1 hq
    obtain ⟨n, hn, rfl⟩ := hterms y hy
    rw [(exactly_ofInt (by omega) (by exact_mod_cast hn)).value]
    positivity
  induction h with
  | zero => exact ⟨0, rfl, by simp⟩
  | term y =>
    obtain ⟨n, hn, rfl⟩ := hterms y (Multiset.mem_singleton_self y)
    refine ⟨n, rfl, ?_⟩
    rw [Multiset.map_singleton, Multiset.sum_singleton,
      (exactly_ofInt (by omega) (by exact_mod_cast hn)).value, Int.cast_natCast]
  | @add x y s t _ _ ihx ihy =>
    have hs : ∀ z ∈ s, ∃ n : ℕ, n < 2 ^ 53 ∧ z = ofInt n := fun z hz =>
      hterms z (Multiset.mem_add.2 (.inl hz))
    have ht : ∀ z ∈ t, ∃ n : ℕ, n < 2 ^ 53 ∧ z = ofInt n := fun z hz =>
      hterms z (Multiset.mem_add.2 (.inr hz))
    rw [Multiset.map_add, Multiset.sum_add] at hlt ⊢
    obtain ⟨m, rfl, hm⟩ := ihx hs (by linarith [hnonneg ht])
    obtain ⟨n, rfl, hn⟩ := ihy ht (by linarith [hnonneg hs])
    have hsum : m + n < 2 ^ 53 := by
      rw [← hm, ← hn] at hlt
      exact_mod_cast hlt
    refine ⟨m + n, ?_, by rw [← hm, ← hn, Nat.cast_add]⟩
    rw [ofInt_add (by omega) (by omega) (by exact_mod_cast hsum), Nat.cast_add]

/-- Whatever the order in which doubles of some integers are added, they come to the double of their
sum. -/
theorem eq_ofInt_of_isSumOf {xs : List ℤ} (hnonneg : ∀ x ∈ xs, 0 ≤ x) (hlt : xs.sum < 2 ^ 53)
    {x : Binary64} (h : IsSumOf x (xs.map ofInt : List Binary64)) : x = ofInt xs.sum := by
  have hsmall : ∀ n ∈ xs, n < 2 ^ 53 := fun n hn =>
    (List.single_le_sum hnonneg n hn).trans_lt hlt
  have hvalues : ((xs.map ofInt : Multiset Binary64).map value).sum = (xs.sum : ℚ) := by
    rw [Multiset.map_coe, Multiset.sum_coe, List.map_map, Int.cast_list_sum]
    congr 1
    exact List.map_congr_left fun n hn => (exactly_ofInt (hnonneg n hn) (hsmall n hn)).value
  have hterms : ∀ y ∈ (xs.map ofInt : Multiset Binary64), ∃ n : ℕ, n < 2 ^ 53 ∧ y = ofInt n := by
    intro y hy
    obtain ⟨n, hn, rfl⟩ := List.mem_map.1 (Multiset.mem_coe.1 hy)
    lift n to ℕ using hnonneg n hn
    exact ⟨n, by exact_mod_cast hsmall _ hn, rfl⟩
  obtain ⟨n, rfl, hn⟩ := exact_of_isSumOf h hterms (by rw [hvalues]; exact_mod_cast hlt)
  rw [hvalues] at hn
  congr 1
  exact_mod_cast hn

theorem sum_map_ofInt {xs : List ℤ} (hnonneg : ∀ x ∈ xs, 0 ≤ x) (hlt : xs.sum < 2 ^ 53) :
    sum (xs.map ofInt) = ofInt xs.sum :=
  eq_ofInt_of_isSumOf hnonneg hlt (isSumOf_sum _)

theorem pairwiseSum_map_ofInt {xs : List ℤ} (hnonneg : ∀ x ∈ xs, 0 ≤ x) (hlt : xs.sum < 2 ^ 53) :
    pairwiseSum (xs.map ofInt) = ofInt xs.sum :=
  eq_ofInt_of_isSumOf hnonneg hlt (isSumOf_pairwiseSum _)

/-! ### Bounds of rounded sums -/

/-- A finite number between zero and a power of two. -/
structure IsWithin (k : ℕ) (x : Binary64) : Prop where
  isFinite : x.isFinite = true
  nonneg : 0 ≤ x.value
  le : x.value ≤ 2 ^ k

theorem value_ofRounded {m : ℕ} {e : ℤ} (h : (ofRounded false m e).isFinite = true) :
    (ofRounded false m e).value = m * 2 ^ e := by
  unfold ofRounded at h ⊢
  split_ifs at h ⊢ with hcarry
  · dsimp only at h ⊢
    split_ifs at h ⊢
    · rw [value, power_eq, hcarry, twoPower_eq, twoPower_eq, zpow_add_one₀ two_ne_zero]
      push_cast
      ring
    · cases h
  · dsimp only at h ⊢
    split_ifs at h ⊢
    · rw [value, power_eq, if_neg Bool.false_ne_true]
    · cases h

/-- A power of two bounds the numbers that are nearest to what it bounds. -/
theorem isWithin_ofSize {q : ℚ} {k : ℕ} (hq : 0 < q) (hle : q ≤ 2 ^ k) (hk : k < 1023) :
    IsWithin k (ofSize false q) := by
  have hfinite : (ofSize false q).isFinite = true := by
    rw [← ofRat_eq_ofSize hq]
    refine isFinite_ofRat ?_
    rw [abs_of_pos hq]
    refine hle.trans_lt ?_
    rw [← zpow_natCast]
    exact zpow_lt_zpow_right₀ one_lt_two (by exact_mod_cast hk)
  obtain ⟨t, htlow, -, hexponent⟩ := exists_leading_power hq
  set e := exponentFor q.num.natAbs q.den
  have htop : t ≤ k := by
    rw [← zpow_natCast] at hle
    exact (zpow_le_zpow_iff_right₀ one_lt_two).1 (htlow.trans hle)
  -- the power of two is a whole number of steps at the exponent
  have hwhole : ((2 ^ (k - e).toNat : ℕ) : ℚ) * 2 ^ e = 2 ^ k := by
    rw [natPow_mul_zpow (a := k) (by omega), zpow_natCast]
  have hsignificand : significandAt q.num.natAbs q.den e ≤ 2 ^ (k - e).toNat := by
    refine significandAt_le q.den_pos ?_
    rw [hwhole, num_eq_den_mul hq]
    exact mul_le_mul_of_nonneg_left hle (by positivity)
  have hvalue : (ofSize false q).value = significandAt q.num.natAbs q.den e * 2 ^ e :=
    value_ofRounded hfinite
  refine ⟨hfinite, by rw [hvalue]; positivity, ?_⟩
  rw [hvalue, ← hwhole]
  exact mul_le_mul_of_nonneg_right (by exact_mod_cast hsignificand) (by positivity)

theorem isWithin_ofRatSigned {q : ℚ} {k : ℕ} (hq : 0 ≤ q) (hle : q ≤ 2 ^ k) (hk : k < 1023)
    (negative : Bool) : IsWithin k (ofRatSigned q negative) := by
  rcases hq.eq_or_lt with rfl | hpos
  · have hvalue : (zero negative).value = 0 := by
      cases negative <;> simp [zero, value]
    exact ⟨rfl, hvalue.ge, hvalue.trans_le (by positivity)⟩
  · have hnum : q.num ≠ 0 := (Rat.num_pos.2 hpos).ne'
    have hsame : ofRatSigned q negative = ofSize false q := by
      rw [← ofRat_eq_ofSize hpos]
      unfold ofRat ofRatSigned
      rw [if_neg hnum, if_neg hnum]
    rw [hsame]
    exact isWithin_ofSize hpos hle hk

variable {x y : Binary64} {k : ℕ}

theorem IsWithin.add (hx : IsWithin k x) (hy : IsWithin k y) (hk : k + 1 < 1023) :
    IsWithin (k + 1) (x + y) := by
  obtain ⟨hx, hxnonneg, hxle⟩ := hx
  obtain ⟨hy, hynonneg, hyle⟩ := hy
  cases x with
  | finite =>
    cases y with
    | finite =>
      refine isWithin_ofRatSigned (add_nonneg hxnonneg hynonneg) ?_ hk _
      rw [pow_succ]
      linarith
    | nan => cases hy
    | infinite => cases hy
  | nan => cases hx
  | infinite => cases hx

theorem IsWithin.mono {l : ℕ} (h : IsWithin k x) (hle : k ≤ l) : IsWithin l x :=
  ⟨h.isFinite, h.nonneg, h.le.trans (pow_le_pow_right₀ one_le_two hle)⟩

theorem isWithin_pairwiseSum_ones_of_le {n : ℕ} (h : n ≤ blockSize) :
    IsWithin 7 (pairwiseSum (List.replicate n (ofInt 1))) := by
  have hsum : pairwiseSum (List.replicate n (ofInt 1)) = ofInt n := by
    have hnonneg : ∀ x ∈ List.replicate n (1 : ℤ), 0 ≤ x := fun x hx => by
      simp [List.eq_of_mem_replicate hx]
    have hlt : (List.replicate n (1 : ℤ)).sum < 2 ^ 53 := by
      have hblock : n ≤ 128 := h
      simp
      omega
    simpa using pairwiseSum_map_ofInt hnonneg hlt
  rw [hsum]
  exact isWithin_ofRatSigned (by positivity) (by exact_mod_cast h) (by norm_num) false

/-- Ones in a block are counted exactly; each halving of what is longer adds one to the exponent of
the bound. -/
theorem isWithin_pairwiseSum_ones {n j : ℕ} (h : n ≤ 2 ^ (j + 6) + 16) (hj : j < 1000) :
    IsWithin (j + 7) (pairwiseSum (List.replicate n (ofInt 1))) := by
  induction j generalizing n with
  | zero => exact isWithin_pairwiseSum_ones_of_le (h.trans (by decide))
  | succ j ih =>
    by_cases hblock : n ≤ blockSize
    · exact (isWithin_pairwiseSum_ones_of_le hblock).mono (by omega)
    · rw [show j + 1 + 6 = (j + 6) + 1 by omega, pow_succ] at h
      rw [pairwiseSum, if_neg (by rwa [List.length_replicate])]
      dsimp only
      rw [List.take_replicate, List.drop_replicate, List.length_replicate]
      exact (ih (by omega) (by omega)).add (ih (by omega) (by omega)) (by omega)

end Binary64
end RoleMining
