import RoleMining.Proofs.Ledger
import RoleMining.Proofs.Sweep

/-!
# What the two passes find

The inner pass sees only distinct results of the outer one that reached the threshold. Nothing is
lost: a set that reaches the threshold is contained in the two outer results that make it up, so
these reach it too; and if the two coincide, the set was found by the outer pass already.
-/
namespace RoleMining

namespace Discoveries

theorem find?_recordAll (provenance : Provenance) (found : List IdSet) (known : Discoveries)
    (K : IdSet) : (recordAll provenance found known).find? K =
      if K ∈ found then some ((known.find? K).getD provenance) else known.find? K := by
  induction found generalizing known with
  | nil => simp [recordAll]
  | cons S found ih =>
    change (recordAll provenance found (known.recordNew S provenance)).find? K = _
    rw [ih, Ledger.find?_recordNew]
    by_cases hS : K = S
    · subst hS
      simp
    · simp [hS]

end Discoveries

variable {α : Type} {qualifies : IdSet → Bool} {sets : List IdSet} {run : Run α} {K : IdSet}

/-- The results of the outer pass over some sets. -/
def outerLevel (qualifies : IdSet → Bool) (sets : List IdSet) : List IdSet :=
  Sweep.shared qualifies (pairs sets)

/-- The results of the inner pass, which goes over the distinct results of the outer one. -/
def innerLevel (qualifies : IdSet → Bool) (sets : List IdSet) : List IdSet :=
  Sweep.shared qualifies (pairs (sortKeys (outerLevel qualifies sets)))

theorem mem_outerLevel :
    K ∈ outerLevel qualifies sets ↔ qualifies K = true ∧ IsMeet 2 sets K :=
  Sweep.mem_shared_pairs

theorem mem_innerLevel : K ∈ innerLevel qualifies sets ↔
    qualifies K = true ∧ IsMeet 2 (sortKeys (outerLevel qualifies sets)) K :=
  Sweep.mem_shared_pairs

/-- A result of the inner pass is an intersection of two to four of the sets. -/
theorem isMeet_of_mem_innerLevel (h : K ∈ innerLevel qualifies sets) :
    ∃ n, 2 ≤ n ∧ n ≤ 4 ∧ IsMeet n sets K := by
  obtain ⟨⟨A, B⟩, hp, rfl⟩ := isMeet_two_iff.1 (mem_innerLevel.1 h).2
  have hsub := mem_pairs.1 hp
  have hA := (mem_outerLevel.1 (mem_sortKeys.1 (hsub.mem (List.mem_cons_self)))).2
  have hB := (mem_outerLevel.1 (mem_sortKeys.1 (hsub.mem (by simp : B ∈ [A, B])))).2
  exact hA.inter hB

/-- An intersection of three or four of the sets that qualifies is on one of the two levels. -/
theorem mem_levels_of_isMeet (hmono : ∀ s t, s ⊆ t → qualifies s = true → qualifies t = true)
    (hK : qualifies K = true) {n : ℕ} (hn : n = 3 ∨ n = 4) (h : IsMeet n sets K) :
    K ∈ outerLevel qualifies sets ∨ K ∈ innerLevel qualifies sets := by
  obtain ⟨A, B, hA, hB, rfl⟩ := h.split hn
  have hAin : A ∈ outerLevel qualifies sets :=
    mem_outerLevel.2 ⟨hmono _ _ (fun x hx => (IdSet.mem_inter.1 hx).1) hK, hA⟩
  have hBin : B ∈ outerLevel qualifies sets :=
    mem_outerLevel.2 ⟨hmono _ _ (fun x hx => (IdSet.mem_inter.1 hx).2) hK, hB⟩
  by_cases hAB : A = B
  · have hself : A.inter B = A := IdSet.ext_mem fun x => by simp [← hAB]
    exact .inl (hself.symm ▸ hAin)
  · refine .inr (mem_innerLevel.2 ⟨hK, ?_⟩)
    exact isMeet_two_of_ne (mem_sortKeys.2 hAin) (mem_sortKeys.2 hBin) hAB

theorem mem_levels_iff (hmono : ∀ s t, s ⊆ t → qualifies s = true → qualifies t = true) :
    K ∈ outerLevel qualifies sets ∨ K ∈ innerLevel qualifies sets ↔
      qualifies K = true ∧ ∃ n, 2 ≤ n ∧ n ≤ 4 ∧ IsMeet n sets K := by
  constructor
  · intro hlevel
    rcases hlevel with h | h
    · exact ⟨(mem_outerLevel.1 h).1, 2, le_rfl, by omega, (mem_outerLevel.1 h).2⟩
    · exact ⟨(mem_innerLevel.1 h).1, isMeet_of_mem_innerLevel h⟩
  · intro hshared
    rcases hshared with ⟨hK, n, hlow, hhigh, h⟩
    obtain rfl | hn : n = 2 ∨ (n = 3 ∨ n = 4) := by omega
    · exact .inl (mem_outerLevel.2 ⟨hK, h⟩)
    · exact mem_levels_of_isMeet hmono hK hn h

/-! ### Both passes -/

theorem settles_collectIntersections (qualifies : IdSet → Bool) (sets : List IdSet)
    (run : Run α) : run.Settles (collectIntersections qualifies sets run).1 := by
  have houter := Sweep.continues_pairwise qualifies run sets
  unfold collectIntersections
  dsimp only
  rw [Sweep.pairwise_stopped]
  split
  next hstopped => exact houter.settles (Run.settles_markAborted hstopped)
  next =>
    rw [Sweep.pairwise_stopped]
    have hinner := Sweep.continues_pairwise qualifies (Sweep.pairwise qualifies run sets).run
      (sortKeys (Sweep.pairwise qualifies run sets).seen)
    exact (houter.trans hinner).settles (Run.settles_markIf _)

theorem unhindered_collectIntersections (qualifies : IdSet → Bool) (sets : List IdSet)
    (h : run.Unhindered) : (collectIntersections qualifies sets run).1.Unhindered :=
  (settles_collectIntersections qualifies sets run).unhindered h

/-- A run that nothing hinders comes through both passes. -/
theorem exists_collectIntersections (h : run.Unhindered) : ∃ after found,
    collectIntersections qualifies sets run = (after, found) ∧ after.cancelled = false :=
  ⟨_, _, Prod.mk.eta.symm, (unhindered_collectIntersections qualifies sets h).running⟩

section Found

variable {after : Run α} {found : Discoveries}

/-- An uncancelled run records the outer level as such, then what is new on the inner level. -/
theorem collectIntersections_eq_levels
    (hfound : collectIntersections qualifies sets run = (after, found))
    (hafter : after.cancelled = false) :
    found = Discoveries.recordAll .inner (innerLevel qualifies sets)
      (Discoveries.recordAll .outer (outerLevel qualifies sets) .empty) := by
  unfold collectIntersections at hfound
  dsimp only at hfound
  split at hfound
  next hstopped =>
    obtain ⟨rfl, -⟩ := Prod.mk.inj hfound
    rw [Run.cancelled_markAborted, ← Sweep.pairwise_stopped, hstopped] at hafter
    exact absurd hafter (by decide)
  next hrunning =>
    obtain ⟨rfl, rfl⟩ := Prod.mk.inj hfound
    have houter : (Sweep.pairwise qualifies run sets).run.cancelled = false := by
      rw [← Sweep.pairwise_stopped]
      exact eq_false_of_ne_true hrunning
    have hinner : (Sweep.pairwise qualifies (Sweep.pairwise qualifies run sets).run
        (sortKeys (Sweep.pairwise qualifies run sets).seen)).run.cancelled = false := by
      split at hafter <;> exact hafter
    rw [Sweep.pairwise_seen hinner, Sweep.pairwise_seen houter]
    rfl

/-- What an uncancelled run finds, and by which pass. -/
theorem find?_collectIntersections
    (hmono : ∀ s t, s ⊆ t → qualifies s = true → qualifies t = true)
    (hfound : collectIntersections qualifies sets run = (after, found))
    (hafter : after.cancelled = false) {p : Provenance} :
    found.find? K = some p ↔ (qualifies K = true ∧ ∃ n, 2 ≤ n ∧ n ≤ 4 ∧ IsMeet n sets K) ∧
      (p = .outer ↔ IsMeet 2 sets K) := by
  rw [collectIntersections_eq_levels hfound hafter, Discoveries.find?_recordAll,
    Discoveries.find?_recordAll, Ledger.find?_empty, ← mem_levels_iff hmono]
  by_cases houter : K ∈ outerLevel qualifies sets
  · have htwo := (mem_outerLevel.1 houter).2
    simp [houter, htwo, eq_comm]
  · have htwo (hK : qualifies K = true) : ¬ IsMeet 2 sets K := fun h =>
      houter (mem_outerLevel.2 ⟨hK, h⟩)
    by_cases hinner : K ∈ innerLevel qualifies sets
    · have hnot := htwo (mem_innerLevel.1 hinner).1
      cases p <;> simp [houter, hinner, hnot]
    · simp [houter, hinner]

theorem mem_keys_collectIntersections
    (hmono : ∀ s t, s ⊆ t → qualifies s = true → qualifies t = true)
    (hfound : collectIntersections qualifies sets run = (after, found))
    (hafter : after.cancelled = false) :
    K ∈ found.keys ↔ qualifies K = true ∧ ∃ n, 2 ≤ n ∧ n ≤ 4 ∧ IsMeet n sets K := by
  simp only [Ledger.mem_keys_iff, find?_collectIntersections hmono hfound hafter,
    exists_and_left, and_iff_left_iff_imp]
  intro _
  by_cases htwo : IsMeet 2 sets K
  · exact ⟨.outer, by simp [htwo]⟩
  · exact ⟨.inner, by simp [htwo]⟩

/-- The two passes find exactly the intersections of two, three or four of the sets that reach the
threshold, each once. Those of two sets are outer results and all others inner ones, in whatever
order the sets are listed. Any weights that are not negative will do: those of a ledger, or ones,
which make plain sizes. -/
theorem collectIntersections_finds_meets {weight : String → ℤ} (hw : ∀ x, 0 ≤ weight x)
    {size : Number} (hfound : collectIntersections (reaches weight size) sets run = (after, found))
    (hafter : after.cancelled = false) :
    found.keys.Nodup ∧
    (∀ K, K ∈ found.keys ↔
      reaches weight size K = true ∧ ∃ n, 2 ≤ n ∧ n ≤ 4 ∧ IsMeet n sets K) ∧
    (∀ K ∈ found.keys, (found.find? K = some .outer ↔ IsMeet 2 sets K) ∧
      (found.find? K = some .inner ↔ ¬ IsMeet 2 sets K)) ∧
    ∀ (sets' : List IdSet) (run' after' : Run α) (found' : Discoveries), sets.Perm sets' →
      collectIntersections (reaches weight size) sets' run' = (after', found') →
      after'.cancelled = false → ∀ K, found'.find? K = found.find? K := by
  have hmono : ∀ s t, s ⊆ t → reaches weight size s = true → reaches weight size t = true :=
    fun s t hst => reaches_mono (fun x _ => hw x) hst
  have hkeys := fun K => mem_keys_collectIntersections (K := K) hmono hfound hafter
  refine ⟨found.nodup, hkeys, fun K hK => ?_, ?_⟩
  · have hshared := (hkeys K).1 hK
    rw [find?_collectIntersections hmono hfound hafter,
      find?_collectIntersections hmono hfound hafter]
    simp [hshared]
  · intro sets' run' after' found' hperm hfound' hafter' K
    apply Option.ext
    intro p
    rw [find?_collectIntersections hmono hfound hafter,
      find?_collectIntersections hmono hfound' hafter']
    simp only [isMeet_perm_iff hperm]

/-- Three sets have one identifier in common, which weighs two; the inner pass finds it. -/
theorem collectIntersections_finds_common : ∃ (after : Run Unit) (found : Discoveries),
    (∀ x, 0 ≤ weightIn (Ledger.ofList [("a", (2 : ℤ))]).find? x) ∧
    collectIntersections (reaches (weightIn (Ledger.ofList [("a", 2)]).find?) 2)
      [.ofList ["a", "b", "c"], .ofList ["a", "b", "d"], .ofList ["a", "c", "d"]]
      Run.unwatched = (after, found) ∧
    after.cancelled = false ∧ found.find? (.ofList ["a"]) = some .inner := by
  have hw : ∀ x, 0 ≤ weightIn (Ledger.ofList [("a", (2 : ℤ))]).find? x := by
    intro x
    by_cases hx : x = "a" <;> simp [weightIn, Ledger.ofList, Ledger.find?_record, hx]
  obtain ⟨after, found, hfound, hafter⟩ := exists_collectIntersections Run.unhindered_unwatched
  refine ⟨after, found, hw, hfound, hafter, ?_⟩
  have hspec := collectIntersections_finds_meets hw hfound hafter
  have hthree : IsMeet 3 [.ofList ["a", "b", "c"], .ofList ["a", "b", "d"],
      .ofList ["a", "c", "d"]] (.ofList ["a"]) := by
    refine ⟨_, List.Sublist.refl _, rfl, fun x => ?_⟩
    simp only [List.forall_mem_cons, IdSet.mem_ofList]
    grind
  have htwo : ¬ IsMeet 2 [.ofList ["a", "b", "c"], .ofList ["a", "b", "d"],
      .ofList ["a", "c", "d"]] (.ofList ["a"]) := by
    rw [isMeet_two_iff]
    decide
  have hkey := (hspec.2.1 (.ofList ["a"])).2 ⟨by decide, 3, by omega, by omega, hthree⟩
  exact (hspec.2.2.1 _ hkey).2.2 htwo

end Found
end RoleMining
