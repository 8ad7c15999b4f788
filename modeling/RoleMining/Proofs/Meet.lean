import Mathlib.Data.Multiset.UnionInter
import Mathlib.Data.Multiset.ZeroCons
import RoleMining.Proofs.Size

/-!
# Intersections at distinct positions

A choice of positions in a list of sets is a sublist. What it picks matters up to order only, so it
may as well be taken for a multiset below the multiset of all the sets: the union of two choices is
a choice, and a permutation of the sets has the same choices.
-/
namespace RoleMining

/-- The intersection of `n` of the sets, chosen at distinct positions. -/
def IsMeet (n : ℕ) (sets : List IdSet) (K : IdSet) : Prop :=
  ∃ chosen : List IdSet, chosen.Sublist sets ∧ chosen.length = n ∧
    ∀ x, x ∈ K ↔ ∀ s ∈ chosen, x ∈ s

/-- Sets have an intersection as soon as there is one. -/
theorem exists_meet {chosen : List IdSet} (hne : chosen ≠ []) :
    ∃ K : IdSet, ∀ x, x ∈ K ↔ ∀ s ∈ chosen, x ∈ s := by
  obtain ⟨s, rest, rfl⟩ := List.exists_cons_of_ne_nil hne
  exact ⟨s.filter fun x => decide (∀ t ∈ rest, x ∈ t), fun x => by simp⟩

theorem isMeet_iff_le {n : ℕ} {sets : List IdSet} {K : IdSet} :
    IsMeet n sets K ↔ ∃ chosen : Multiset IdSet, chosen ≤ (sets : Multiset IdSet) ∧
      chosen.card = n ∧ ∀ x, x ∈ K ↔ ∀ s ∈ chosen, x ∈ s := by
  constructor
  · intro hmeet
    rcases hmeet with ⟨chosen, hsub, hlen, hmem⟩
    exact ⟨chosen, Multiset.coe_le.2 hsub.subperm, hlen, hmem⟩
  · intro hmeet
    rcases hmeet with ⟨chosen, hle, hcard, hmem⟩
    induction chosen using Quotient.inductionOn with
    | _ picked =>
      obtain ⟨chosen, hperm, hsub⟩ := Multiset.coe_le.1 hle
      refine ⟨chosen, hsub, hperm.length_eq.trans hcard, fun x => (hmem x).trans ?_⟩
      exact forall_congr' fun s => imp_congr_left hperm.mem_iff.symm

theorem IsMeet.perm {n : ℕ} {sets sets' : List IdSet} {K : IdSet} (h : IsMeet n sets K)
    (hperm : sets.Perm sets') : IsMeet n sets' K := by
  rw [isMeet_iff_le] at h ⊢
  rwa [← Multiset.coe_eq_coe.2 hperm]

theorem isMeet_perm_iff {n : ℕ} {sets sets' : List IdSet} {K : IdSet}
    (hperm : sets.Perm sets') : IsMeet n sets K ↔ IsMeet n sets' K :=
  ⟨fun h => h.perm hperm, fun h => h.perm hperm.symm⟩

/-- Sets that every superset of `K` belongs to are the only ones that matter for `K`. -/
theorem isMeet_filter_iff {n : ℕ} {sets : List IdSet} {K : IdSet} {keep : IdSet → Bool}
    (hkeep : ∀ s ∈ sets, K ⊆ s → keep s = true) :
    IsMeet n (sets.filter keep) K ↔ IsMeet n sets K := by
  constructor
  · intro hmeet
    rcases hmeet with ⟨chosen, hsub, hlen, hmem⟩
    exact ⟨chosen, hsub.trans List.filter_sublist, hlen, hmem⟩
  · intro hmeet
    rcases hmeet with ⟨chosen, hsub, hlen, hmem⟩
    refine ⟨chosen, ?_, hlen, hmem⟩
    have hall : ∀ s ∈ chosen, keep s = true := fun s hs =>
      hkeep s (hsub.mem hs) fun x hx => (hmem x).1 hx s hs
    have hfilter := hsub.filter keep
    rwa [List.filter_eq_self.2 hall] at hfilter

theorem IsMeet.exists_superset {n : ℕ} {sets : List IdSet} {K : IdSet} (h : IsMeet (n + 1) sets K) :
    ∃ s ∈ sets, K ⊆ s := by
  obtain ⟨chosen, hsub, hlen, hmem⟩ := h
  obtain ⟨s, hs⟩ := List.exists_mem_of_length_eq_add_one hlen
  exact ⟨s, hsub.mem hs, fun x hx => (hmem x).1 hx s hs⟩

theorem isMeet_one_iff {sets : List IdSet} {K : IdSet} : IsMeet 1 sets K ↔ K ∈ sets := by
  constructor
  · intro hmeet
    rcases hmeet with ⟨chosen, hsub, hlen, hmem⟩
    obtain ⟨s, rfl⟩ := List.length_eq_one_iff.1 hlen
    have hK : K = s := IdSet.ext_mem fun x => by simpa using hmem x
    exact hK ▸ List.singleton_sublist.1 hsub
  · intro hK
    exact ⟨[K], List.singleton_sublist.2 hK, rfl, fun x => by simp⟩

theorem isMeet_two_iff_le {sets : List IdSet} {K : IdSet} :
    IsMeet 2 sets K ↔ ∃ A B, ({A, B} : Multiset IdSet) ≤ sets ∧ A.inter B = K := by
  rw [isMeet_iff_le]
  constructor
  · intro hmeet
    rcases hmeet with ⟨chosen, hle, hcard, hmem⟩
    obtain ⟨A, B, rfl⟩ := Multiset.card_eq_two.1 hcard
    exact ⟨A, B, hle, IdSet.ext_mem fun x => by simpa using (hmem x).symm⟩
  · intro hpair
    rcases hpair with ⟨A, B, hle, rfl⟩
    exact ⟨{A, B}, hle, rfl, fun x => by simp⟩

/-- Two choices together are a choice. -/
theorem IsMeet.inter {m n : ℕ} {sets : List IdSet} {A B : IdSet} (hA : IsMeet m sets A)
    (hB : IsMeet n sets B) : ∃ k, m ≤ k ∧ k ≤ m + n ∧ IsMeet k sets (A.inter B) := by
  classical
  rw [isMeet_iff_le] at hA hB
  obtain ⟨left, hleft, rfl, hmemA⟩ := hA
  obtain ⟨right, hright, rfl, hmemB⟩ := hB
  refine ⟨(left ∪ right).card, Multiset.card_le_card Multiset.le_union_left, ?_, ?_⟩
  · calc
      (left ∪ right).card ≤ (left + right).card :=
        Multiset.card_le_card (Multiset.union_le_add left right)
      _ = left.card + right.card := Multiset.card_add left right
  · rw [isMeet_iff_le]
    refine ⟨left ∪ right, Multiset.union_le hleft hright, rfl, fun x => ?_⟩
    simp only [IdSet.mem_inter, hmemA, hmemB, Multiset.mem_union]
    exact ⟨fun h s hs => hs.elim (h.1 s) (h.2 s),
      fun h => ⟨fun s hs => h s (.inl hs), fun s hs => h s (.inr hs)⟩⟩

/-- Three or four sets are covered by two pairs of them. -/
theorem IsMeet.split {n : ℕ} {sets : List IdSet} {K : IdSet} (h : IsMeet n sets K)
    (hn : n = 3 ∨ n = 4) :
    ∃ A B, IsMeet 2 sets A ∧ IsMeet 2 sets B ∧ K = A.inter B := by
  obtain ⟨chosen, hsub, hlen, hmem⟩ := h
  have pair {s t : IdSet} (hst : [s, t].Sublist chosen) : IsMeet 2 sets (s.inter t) :=
    ⟨[s, t], hst.trans hsub, rfl, fun x => by simp⟩
  rcases hn with rfl | rfl
  · obtain ⟨a, b, c, rfl⟩ := List.length_eq_three.1 hlen
    refine ⟨a.inter b, b.inter c, pair (by simp), pair (by simp), IdSet.ext_mem fun x => ?_⟩
    simp only [hmem, List.forall_mem_cons, IdSet.mem_inter]
    simp only [List.not_mem_nil, false_imp_iff, implies_true, and_true]
    tauto
  · obtain ⟨a, rest, rfl⟩ := List.exists_cons_of_length_eq_add_one hlen
    obtain ⟨b, c, d, rfl⟩ := List.length_eq_three.1 (Nat.succ.inj hlen)
    refine ⟨a.inter b, c.inter d, pair (by simp), pair (by simp), IdSet.ext_mem fun x => ?_⟩
    simp only [hmem, List.forall_mem_cons, IdSet.mem_inter]
    simp only [List.not_mem_nil, false_imp_iff, implies_true, and_true]
    tauto

/-! ### Pairs -/

theorem mem_pairs {α : Type} {xs : List α} {a b : α} :
    (a, b) ∈ pairs xs ↔ [a, b].Sublist xs := by
  induction xs with
  | nil => simp [pairs]
  | cons x xs ih =>
    rw [pairs, List.mem_append, ih]
    constructor
    · intro hmem
      rcases hmem with h | h
      · obtain ⟨y, hy, he⟩ := List.mem_map.1 h
        cases he
        exact (List.singleton_sublist.2 hy).cons_cons _
      · exact h.cons _
    · intro h
      cases h with
      | cons _ h => exact .inr h
      | cons_cons _ h => exact .inl (List.mem_map.2 ⟨b, List.singleton_sublist.1 h, rfl⟩)

theorem isMeet_two_iff {sets : List IdSet} {K : IdSet} :
    IsMeet 2 sets K ↔ ∃ p ∈ pairs sets, p.1.inter p.2 = K := by
  constructor
  · intro hmeet
    rcases hmeet with ⟨chosen, hsub, hlen, hmem⟩
    obtain ⟨A, B, rfl⟩ := List.length_eq_two.1 hlen
    exact ⟨(A, B), mem_pairs.2 hsub, IdSet.ext_mem fun x => by simpa using (hmem x).symm⟩
  · intro hpair
    rcases hpair with ⟨⟨A, B⟩, hp, rfl⟩
    exact ⟨[A, B], mem_pairs.1 hp, rfl, fun x => by simp⟩

/-- Two different sets stand at distinct positions. -/
theorem isMeet_two_of_ne {sets : List IdSet} {A B : IdSet} (hA : A ∈ sets) (hB : B ∈ sets)
    (hne : A ≠ B) : IsMeet 2 sets (A.inter B) := by
  refine isMeet_two_iff_le.2 ⟨A, B, ?_, rfl⟩
  rw [Multiset.le_iff_subset (by simpa using hne)]
  intro s hs
  rcases Multiset.mem_cons.1 hs with rfl | hs
  · exact hA
  · exact Multiset.mem_singleton.1 hs ▸ hB

/-! ### Repeated sets -/

section Repeated

variable {f : IdSet → IdSet} {Ps Qs : List IdSet} {P K : IdSet}

theorem isMeet_map_iff {n : ℕ} : IsMeet n (Ps.map f) K ↔
    ∃ chosen : List IdSet, chosen.Sublist Ps ∧ chosen.length = n ∧
      ∀ x, x ∈ K ↔ ∀ Q ∈ chosen, x ∈ f Q := by
  constructor
  · intro hmeet
    obtain ⟨picked, hsub, hlen, hmem⟩ := hmeet
    obtain ⟨chosen, hchosen, rfl⟩ := List.sublist_map_iff.1 hsub
    exact ⟨chosen, hchosen, by simpa using hlen, by simpa using hmem⟩
  · intro hmeet
    obtain ⟨chosen, hsub, hlen, hmem⟩ := hmeet
    exact ⟨chosen.map f, hsub.map f, by simpa using hlen, by simpa using hmem⟩

theorem isMeet_map_mono {n : ℕ} (hle : Ps.Subperm Qs) (h : IsMeet n (Ps.map f) K) :
    IsMeet n (Qs.map f) K := by
  rw [isMeet_iff_le, ← Multiset.map_coe] at h ⊢
  obtain ⟨chosen, hchosen, hcard, hmem⟩ := h
  exact ⟨chosen, hchosen.trans (Multiset.map_le_map (Multiset.coe_le.2 hle)), hcard, hmem⟩

/-- Without repetitions, some sets have the same intersections of what is kept of them, but for what
is kept of a repeated set itself. -/
theorem exists_isMeet_iff_of_nodup (hnodup : Qs.Nodup) (hmem : ∀ Q, Q ∈ Qs ↔ Q ∈ Ps) :
    (∃ n, 2 ≤ n ∧ n ≤ 4 ∧ IsMeet n (Ps.map f) K) ↔
      (∃ n, 2 ≤ n ∧ n ≤ 4 ∧ IsMeet n (Qs.map f) K) ∨ ∃ P, 2 ≤ Ps.count P ∧ K = f P := by
  constructor
  · intro hmeet
    obtain ⟨n, hlow, hhigh, hmeet⟩ := hmeet
    obtain ⟨chosen, hsub, rfl, hK⟩ := isMeet_map_iff.1 hmeet
    obtain ⟨P, hP⟩ : ∃ P, P ∈ chosen := List.exists_mem_of_length_pos (by omega)
    by_cases hall : ∀ Q ∈ chosen, Q = P
    · have hchosen : chosen = List.replicate chosen.length P := List.eq_replicate_iff.2 ⟨rfl, hall⟩
      refine .inr ⟨P, hlow.trans (List.replicate_sublist_iff.1 (hchosen ▸ hsub)), ?_⟩
      refine IdSet.ext_mem fun x => (hK x).trans ?_
      exact ⟨fun h => h P hP, fun hx Q hQ => hall Q hQ ▸ hx⟩
    · -- two different sets are chosen, so two at least are left without the repetitions
      push Not at hall
      obtain ⟨Q, hQ, hne⟩ := hall
      have hpair : [P, Q].Subperm chosen.dedup :=
        List.subperm_of_subset (by simpa using hne.symm) (by simp [hP, hQ])
      have hdistinct : chosen.dedup.Subperm Qs :=
        List.subperm_of_subset (List.nodup_dedup chosen) fun R hR =>
          (hmem R).2 (hsub.mem (List.mem_dedup.1 hR))
      have hfew : chosen.dedup.length ≤ chosen.length := (List.dedup_sublist chosen).length_le
      refine .inl ⟨_, hpair.length_le, hfew.trans hhigh, isMeet_map_mono hdistinct ?_⟩
      exact isMeet_map_iff.2 ⟨chosen.dedup, .refl _, rfl, by simpa using hK⟩
  · intro hmeet
    rcases hmeet with ⟨n, hlow, hhigh, hmeet⟩ | ⟨P, htwice, rfl⟩
    · have hle : Qs.Subperm Ps := List.subperm_of_subset hnodup fun Q => (hmem Q).1
      exact ⟨n, hlow, hhigh, isMeet_map_mono hle hmeet⟩
    · refine ⟨2, le_rfl, by omega, isMeet_map_iff.2 ⟨List.replicate 2 P, ?_, rfl, fun x => ?_⟩⟩
      · exact List.replicate_sublist_iff.2 htwice
      · simp

/-- What is kept of one of some distinct sets is an intersection of several when what is kept of
another one contains it. -/
theorem exists_isMeet_of_mem_iff (hnodup : Qs.Nodup) (hP : P ∈ Qs) :
    (∃ n, 2 ≤ n ∧ n ≤ 4 ∧ IsMeet n (Qs.map f) (f P)) ↔ ∃ Q ∈ Qs, Q ≠ P ∧ f P ⊆ f Q := by
  constructor
  · intro hmeet
    obtain ⟨n, hlow, -, hmeet⟩ := hmeet
    obtain ⟨chosen, hsub, rfl, hK⟩ := isMeet_map_iff.1 hmeet
    obtain ⟨Q, hQ, hne⟩ : ∃ Q ∈ chosen, Q ≠ P := by
      by_contra hall
      push Not at hall
      have hchosen := List.eq_replicate_iff.2 ⟨rfl, hall⟩
      have hone := List.nodup_replicate.1 (hchosen ▸ hnodup.sublist hsub)
      omega
    exact ⟨Q, hsub.mem hQ, hne, fun x hx => (hK x).1 hx Q hQ⟩
  · intro hother
    obtain ⟨Q, hQ, hne, hcontains⟩ := hother
    have hpair : [P, Q].Subperm Qs :=
      List.subperm_of_subset (by simpa using hne.symm) (by simp [hP, hQ])
    have hboth : IsMeet 2 ([P, Q].map f) (f P) :=
      isMeet_map_iff.2 ⟨[P, Q], .refl _, rfl, fun x => by simpa using hcontains x⟩
    exact ⟨2, le_rfl, by omega, isMeet_map_mono hpair hboth⟩

end Repeated

end RoleMining
