import RoleMining.Pattern
import RoleMining.Proofs.Sweep

/-!
# The best support of a body

Candidates are resolved in ascending order of their keys, and a body takes a new support only when
it is strictly heavier. So after any first part of the candidates a body has the heaviest support
met so far, and of equally heavy ones the one with the smallest key.
-/
namespace RoleMining.Pattern

theorem Findings.find?_enter (weight : String → ℤ) (findings : Findings)
    (body support other : IdSet) :
    (findings.enter weight body support).find? other =
      if other = body then
        match findings.find? body with
        | none => some support
        | some current =>
          if current.weighted weight < support.weighted weight then some support else some current
      else findings.find? other := by
  unfold Findings.enter
  cases hbody : findings.find? body with
  | none => rw [Ledger.find?_record]
  | some current =>
    by_cases hlt : current.weighted weight < support.weighted weight
    · simp only [if_pos hlt, Ledger.find?_record]
    · simp only [if_neg hlt]
      split
      next he => rw [he, hbody]
      next => rfl

/-- The first support is heavier, or as heavy with a key that is not larger. -/
def Outranks (weight : String → ℤ) (S T : IdSet) : Prop :=
  T.weighted weight < S.weighted weight ∨
    (T.weighted weight = S.weighted weight ∧ S.toList ≤ T.toList)

namespace Outranks

variable {weight : String → ℤ} {S T U : IdSet}

theorem refl (S : IdSet) : Outranks weight S S := .inr ⟨rfl, le_rfl⟩

theorem of_heavier (h : Outranks weight T U) (hS : T.weighted weight < S.weighted weight) :
    Outranks weight S U := by
  rcases h with h | ⟨h, -⟩ <;> exact .inl (by omega)

theorem antisymm (h : Outranks weight S T) (h' : Outranks weight T S) : S = T := by
  rw [← IdSet.toList_inj]
  rcases h with h | ⟨he, hle⟩ <;> rcases h' with h' | ⟨he', hge⟩
  · exact absurd h (lt_asymm h')
  · exact absurd he'.symm h.ne
  · exact absurd he.symm h'.ne
  · exact le_antisymm hle hge

theorem weighted_le (h : Outranks weight S T) : T.weighted weight ≤ S.weighted weight := by
  rcases h with hlt | ⟨heq, -⟩
  · exact hlt.le
  · exact heq.le

theorem congr {weight' : String → ℤ} (hS : S.weighted weight = S.weighted weight')
    (hT : T.weighted weight = T.weighted weight') :
    Outranks weight S T ↔ Outranks weight' S T := by
  rw [Outranks, Outranks, hS, hT]

end Outranks

namespace Search

variable {α : Type} (search : Search)

/-- The findings after one more candidate. -/
def step (findings : Findings) (support : IdSet) : Findings :=
  if search.isBody (search.bodyOf support) then
    findings.enter search.supportWeight (search.bodyOf support) support
  else findings

theorem resolve_cons (total : ℕ) (run : Run α) (done : ℕ) (findings : Findings) (support : IdSet)
    (rest : List IdSet) : search.resolve total run done findings (support :: rest) =
      if run.isDue (done + 1) && (run.tick (done + 1) total).cancelled then
        ((run.tick (done + 1) total).markAborted, findings)
      else search.resolve total (run.tick (done + 1) total) (done + 1)
        (search.step findings support) rest := rfl

/-- A search resolves a first part of its candidates, and all of them unless it is cancelled. -/
theorem resolve_findings (total : ℕ) (run : Run α) (done : ℕ) (findings : Findings)
    (candidates : List IdSet) :
    ∃ resolved, resolved <+: candidates ∧
      (search.resolve total run done findings candidates).2 =
        resolved.foldl search.step findings ∧
      ((search.resolve total run done findings candidates).1.cancelled = false →
        resolved = candidates) := by
  induction candidates generalizing run done findings with
  | nil => exact ⟨[], List.prefix_rfl, rfl, fun _ => rfl⟩
  | cons support rest ih =>
    rw [resolve_cons]
    split
    next h =>
      rw [Bool.and_eq_true] at h
      refine ⟨[], List.nil_prefix, rfl, fun hrunning => ?_⟩
      rw [Run.cancelled_markAborted, h.2] at hrunning
      exact absurd hrunning (by decide)
    next =>
      obtain ⟨resolved, hinitial, hfindings, hall⟩ := ih (run.tick (done + 1) total) (done + 1)
        (search.step findings support)
      exact ⟨support :: resolved, List.cons_prefix_cons.2 ⟨rfl, hinitial⟩, hfindings,
        fun h => by rw [hall h]⟩

theorem settles_resolve (total : ℕ) (run : Run α) (done : ℕ) (findings : Findings)
    (candidates : List IdSet) :
    run.Settles (search.resolve total run done findings candidates).1 := by
  induction candidates generalizing run done findings with
  | nil => exact (run.continues_checkpoint _).settles (Run.settles_markIf _)
  | cons support rest ih =>
    rw [resolve_cons]
    split
    next hstopped =>
      rw [Bool.and_eq_true] at hstopped
      exact (run.continues_tick _ _).settles (Run.settles_markAborted hstopped.2)
    next => exact (run.continues_tick _ _).settles (ih ..)

/-- Of the candidates with a body, the heaviest, and of these the one with the smallest key. -/
structure IsBest (candidates : List IdSet) (body support : IdSet) : Prop where
  mem : support ∈ candidates
  bodyOf_eq : search.bodyOf support = body
  isBody : search.isBody body = true
  best : ∀ other ∈ candidates, search.bodyOf other = body →
    Outranks search.supportWeight support other

variable {search} {candidates : List IdSet} {body support new : IdSet}

theorem IsBest.unique {other : IdSet} (h : search.IsBest candidates body support)
    (h' : search.IsBest candidates body other) : support = other :=
  (h.best other h'.mem h'.bodyOf_eq).antisymm (h'.best support h.mem h.bodyOf_eq)

/-- A best support stays so when the new candidate does not outrank it. -/
theorem IsBest.append_of_outranks (h : search.IsBest candidates body support)
    (hnew : search.bodyOf new = body → Outranks search.supportWeight support new) :
    search.IsBest (candidates ++ [new]) body support where
  mem := List.mem_append_left _ h.mem
  bodyOf_eq := h.bodyOf_eq
  isBody := h.isBody
  best other hother hbody := by
    rcases List.mem_append.1 hother with hother | hother
    · exact h.best other hother hbody
    · cases List.mem_singleton.1 hother
      exact hnew hbody

/-- The new candidate is the best one when it outranks all others with its body. -/
theorem isBest_append_self (hlarge : search.isBody (search.bodyOf new) = true)
    (hnew : ∀ other ∈ candidates, search.bodyOf other = search.bodyOf new →
      Outranks search.supportWeight new other) :
    search.IsBest (candidates ++ [new]) (search.bodyOf new) new where
  mem := by simp
  bodyOf_eq := rfl
  isBody := hlarge
  best other hother hbody := by
    rcases List.mem_append.1 hother with hother | hother
    · exact hnew other hother hbody
    · cases List.mem_singleton.1 hother
      exact Outranks.refl new

/-- The invariant of a search: every entry is the best support of its body so far, and no body that
is large enough was forgotten. -/
structure Tracks (search : Search) (candidates : List IdSet) (findings : Findings) : Prop where
  sound : ∀ body support, findings.find? body = some support →
    search.IsBest candidates body support
  complete : ∀ S ∈ candidates, search.isBody (search.bodyOf S) = true →
    ∃ support, findings.find? (search.bodyOf S) = some support

namespace Tracks

variable {findings : Findings}

theorem empty : search.Tracks [] .empty where
  sound body support h := by cases h
  complete S hS := by cases hS

theorem find?_iff (h : search.Tracks candidates findings) :
    findings.find? body = some support ↔ search.IsBest candidates body support := by
  constructor
  · exact h.sound body support
  · intro hbest
    have hlarge := hbest.isBody
    rw [← hbest.bodyOf_eq] at hlarge
    obtain ⟨other, hother⟩ := h.complete support hbest.mem hlarge
    rw [hbest.bodyOf_eq] at hother
    rw [hother, (h.sound body other hother).unique hbest]

/-- An entry after one more candidate, whose key is larger than all before. -/
theorem sound_step (h : search.Tracks candidates findings)
    (hsorted : ∀ S ∈ candidates, S.toList < new.toList)
    (hfind : (search.step findings new).find? body = some support) :
    search.IsBest (candidates ++ [new]) body support := by
  unfold step at hfind
  split at hfind
  next hlarge =>
    rw [Findings.find?_enter] at hfind
    split at hfind
    next heq =>
      subst heq
      split at hfind
      next hnone =>
        cases hfind
        -- the body is new, so no candidate before can have it
        apply isBest_append_self hlarge
        intro other hother hbody
        obtain ⟨known, hknown⟩ := h.complete other hother (hbody ▸ hlarge)
        rw [hbody, hnone] at hknown
        cases hknown
      next current hcurrent =>
        have hbest := h.sound _ _ hcurrent
        split at hfind
        next hlt =>
          cases hfind
          exact isBest_append_self hlarge fun other hother hbody =>
            (hbest.best other hother hbody).of_heavier hlt
        next hle =>
          cases hfind
          -- on equal weights the older entry stays, and its key is the smaller one
          apply hbest.append_of_outranks
          intro _
          rcases lt_or_eq_of_le (not_lt.1 hle) with hlt | heq
          · exact .inl hlt
          · exact .inr ⟨heq, (hsorted _ hbest.mem).le⟩
    next hne => exact (h.sound _ _ hfind).append_of_outranks fun he => absurd he.symm hne
  next hsmall =>
    have hbest := h.sound _ _ hfind
    exact hbest.append_of_outranks fun he => absurd (he ▸ hbest.isBody) hsmall

theorem complete_step (h : search.Tracks candidates findings) {S : IdSet}
    (hS : S ∈ candidates ++ [new]) (hlarge : search.isBody (search.bodyOf S) = true) :
    ∃ support, (search.step findings new).find? (search.bodyOf S) = some support := by
  have hold : S ∈ candidates → ∃ support, findings.find? (search.bodyOf S) = some support :=
    fun hmem => h.complete S hmem hlarge
  unfold step
  split
  next =>
    rw [Findings.find?_enter]
    split
    next =>
      split
      next => exact ⟨_, rfl⟩
      next => split <;> exact ⟨_, rfl⟩
    next hne =>
      rcases List.mem_append.1 hS with hS | hS
      · exact hold hS
      · exact absurd (congrArg search.bodyOf (List.mem_singleton.1 hS)) hne
  next hsmall =>
    rcases List.mem_append.1 hS with hS | hS
    · exact hold hS
    · exact absurd (List.mem_singleton.1 hS ▸ hlarge) hsmall

/-- Candidates in ascending order are tracked to the last one. -/
theorem foldl_step (hsorted : candidates.Pairwise fun S T => S.toList < T.toList) :
    search.Tracks candidates (candidates.foldl search.step .empty) := by
  -- from the back, since the invariant speaks about the candidates so far
  induction candidates using List.reverseRecOn with
  | nil => exact empty
  | append_singleton candidates new ih =>
    rw [List.pairwise_append] at hsorted
    have h := ih hsorted.1
    have hlast : ∀ S ∈ candidates, S.toList < new.toList :=
      fun S hS => hsorted.2.2 S hS new List.mem_cons_self
    rw [List.foldl_concat]
    constructor
    · intro body support hfind
      exact h.sound_step hlast hfind
    · intro S hS hlarge
      exact h.complete_step hS hlarge

end Tracks
end Search
end RoleMining.Pattern
