import RoleMining.Proofs.Binary64.Finite
import RoleMining.Proofs.Detection.Search
import RoleMining.Proofs.Detection.Weights
import RoleMining.Proofs.Discovery
import RoleMining.Proofs.Results

/-!
# What detection is to find

The reference says which patterns some chunks have, without passes, ledgers or an order of search.
Chunks in the band survive; an intersection of up to four of their support sets that is heavy enough
is a candidate; its body are the members of all survivors that have the whole candidate. A body
that is large enough is a pattern, with the best of its candidates for support.
-/
namespace RoleMining

/-- Chunks with the weights of the identifiers on both axes, and the thresholds of a search. -/
structure Reference where
  chunks : List Chunk
  bodyWeight : String → ℤ
  supportWeight : String → ℤ
  thresholds : Thresholds

namespace Reference

variable (r : Reference)

/-- All identifiers that can support a pattern. -/
def population : IdSet := .ofList (r.chunks.flatMap (·.properties))

/-- The weighted share of the population that a chunk is assigned to. -/
def share (c : Chunk) : Binary64 :=
  .ofRat (((c.propertySet.weighted r.supportWeight : ℤ) : ℚ) /
    ((r.population.weighted r.supportWeight : ℤ) : ℚ))

/-- The chunks whose share lies in the band. -/
def survivors : List Chunk :=
  r.chunks.filter fun c => r.thresholds.band.low.atMost (.float (r.share c)) &&
    Number.atMost (.float (r.share c)) r.thresholds.band.high

def supportSets : List IdSet := r.survivors.map (·.propertySet)

/-- An intersection of one to four surviving support sets that is heavy enough. -/
def IsCandidate (S : IdSet) : Prop :=
  reaches r.supportWeight r.thresholds.minSupport S = true ∧
    ∃ n, 1 ≤ n ∧ n ≤ 4 ∧ IsMeet n r.supportSets S

/-- The members of all survivors that have the whole support. -/
def IsBody (S B : IdSet) : Prop :=
  ∀ x, x ∈ B ↔ ∃ c ∈ r.survivors, S ⊆ c.propertySet ∧ x ∈ c.members

/-- A candidate beside its body, which is large enough. -/
structure Supports (S B : IdSet) : Prop where
  candidate : r.IsCandidate S
  body : r.IsBody S B
  large : reaches r.bodyWeight r.thresholds.minIntersection B = true

/-- The best of all that support a body. -/
structure IsFinding (S B : IdSet) : Prop extends r.Supports S B where
  best : ∀ T, r.Supports T B → Pattern.Outranks r.supportWeight S T

/-- A finding with its numbers. The score is the number nearest to the product of the weights. -/
structure IsPattern (mode : Mode) (p : Pattern) : Prop where
  finding : r.IsFinding p.members p.properties
  support_eq : p.support = p.members.weighted r.supportWeight
  score_eq : Binary64.ofInt? (p.properties.weighted r.bodyWeight *
    p.members.weighted r.supportWeight) = some p.score
  mode_eq : p.mode = mode

variable {r}

theorem IsBody.unique {S B B' : IdSet} (h : r.IsBody S B) (h' : r.IsBody S B') : B = B' :=
  IdSet.ext_mem fun x => (h x).trans (h' x).symm

theorem subset_population_of_isMeet {n : ℕ} {S : IdSet} (hn : 1 ≤ n)
    (h : IsMeet n r.supportSets S) : S ⊆ r.population := by
  obtain ⟨k, rfl⟩ := Nat.exists_eq_add_of_le' hn
  obtain ⟨s, hs, hsub⟩ := h.exists_superset
  obtain ⟨c, hc, rfl⟩ := List.mem_map.1 hs
  intro x hx
  exact IdSet.mem_ofList.2 (List.mem_flatMap.2
    ⟨c, List.mem_of_mem_filter hc, IdSet.mem_ofList.1 (hsub x hx)⟩)

theorem IsCandidate.subset_population {S : IdSet} (h : r.IsCandidate S) : S ⊆ r.population := by
  obtain ⟨-, n, hn, -, hmeet⟩ := h
  exact subset_population_of_isMeet hn hmeet

theorem IsBody.subset_members {S B : IdSet} (h : r.IsBody S B) :
    B ⊆ .ofList (r.chunks.flatMap (·.members)) := by
  intro x hx
  obtain ⟨c, hc, -, hxc⟩ := (h x).1 hx
  exact IdSet.mem_ofList.2 (List.mem_flatMap.2 ⟨c, List.mem_of_mem_filter hc, hxc⟩)

/-! ### The band -/

theorem propertySet_subset_population {c : Chunk} (hc : c ∈ r.chunks) :
    c.propertySet ⊆ r.population := by
  intro x hx
  exact IdSet.mem_ofList.2 (List.mem_flatMap.2 ⟨c, hc, IdSet.mem_ofList.1 hx⟩)

/-- No share of a population is too large for a number. -/
theorem frequency_eq_share (hr : Chunk.Consistent r.bodyWeight r.supportWeight r.chunks)
    {c : Chunk} (hc : c ∈ r.chunks) :
    c.frequency (total (Pattern.supportWeights r.chunks).values) = .ok (r.share c) := by
  have hpos : ∀ x ∈ r.population, 0 ≤ r.supportWeight x :=
    fun x hx => le_trans (by decide) (hr.one_le_supportWeight x hx)
  have hsub := propertySet_subset_population hc
  have hle := IdSet.weighted_mono hpos hsub
  have hnonneg := IdSet.weighted_nonneg fun x hx => hpos x (hsub x hx)
  have htotal : total (Pattern.supportWeights r.chunks).values =
    r.population.weighted r.supportWeight := hr.supportWeights_weighs.total_values
  unfold Chunk.frequency share
  rw [htotal, hr.total_propertyWeights hc]
  split_ifs with hempty
  · have hpart : c.propertySet.weighted r.supportWeight = 0 := by omega
    rw [hpart, Int.cast_zero, zero_div]
    rfl
  · have hfinite : (Binary64.ofRat (((c.propertySet.weighted r.supportWeight : ℤ) : ℚ) /
        ((r.population.weighted r.supportWeight : ℤ) : ℚ))).isFinite = true := by
      apply Binary64.isFinite_ofRat
      have hd : (0 : ℚ) < ((r.population.weighted r.supportWeight : ℤ) : ℚ) := by
        exact_mod_cast not_le.1 hempty
      have hn : (0 : ℚ) ≤ ((c.propertySet.weighted r.supportWeight : ℤ) : ℚ) := by
        exact_mod_cast hnonneg
      rw [abs_of_nonneg (div_nonneg hn hd.le)]
      apply lt_of_le_of_lt ((div_le_one hd).2 (by exact_mod_cast hle))
      exact one_lt_zpow₀ (by norm_num) (by norm_num)
    unfold Binary64.ratio?
    dsimp only
    rw [if_pos hfinite]

theorem surviving_eq_survivors (hr : Chunk.Consistent r.bodyWeight r.supportWeight r.chunks) :
    Pattern.surviving r.thresholds.band (total (Pattern.supportWeights r.chunks).values) r.chunks =
      .ok r.survivors := by
  apply filterM_eq_ok
  intro c hc
  rw [frequency_eq_share hr hc]
  rfl

end Reference
end RoleMining
