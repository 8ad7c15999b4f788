import RoleMining.Proofs.Chunk.Expansion
import RoleMining.Proofs.Detection.Closure
import RoleMining.Proofs.Extraction

/-!
# Intersections of expanded chunks

Weights tell how many members hold a set, but not that there are two of them to intersect. Members
with the same properties are one expanded record, so what they share goes unnoticed unless somebody
else holds it too. Nothing else is lost by expanding chunks, nothing is added, and what is found
weighs the same.
-/
namespace RoleMining

namespace Intersection

variable {α : Type} {limits : Limits} {frequencies : Frequencies} {members : List Record}
variable {run after : Run α} {result : List Intersection}

/-- What an intersection says whichever pass found it: its properties, support and weight. -/
def figures (i : Intersection) : IdSet × ℤ × ℤ := (i.properties, i.support, i.weight)

/-- The figures of a set that some members share. -/
def figuresOf (members : List Record) (K : IdSet) : IdSet × ℤ × ℤ :=
  (K, supportOf members K, supportOf members K * K.size)

/-- A property set of two members or more of which so much is usable that they share a large enough
set. -/
structure Twins (limits : Limits) (frequencies : Frequencies) (members : List Record) (P : IdSet) :
    Prop where
  twice : 2 ≤ (members.map (·.properties)).count P
  enough : (Number.int (frequencies.filterSet limits.band P).size).below limits.minSize = false

theorem Twins.mem {P : IdSet} (h : Twins limits frequencies members P) :
    P ∈ members.map (·.properties) :=
  List.count_pos_iff.1 (lt_of_lt_of_le Nat.zero_lt_two h.twice)

theorem bandSets_eq_map : bandSets limits frequencies members =
    (members.map (·.properties)).map (frequencies.filterSet limits.band) := by
  rw [List.map_map]
  rfl

theorem mem_figures_extract_iff
    (hresult : extract limits frequencies members run = (after, result))
    (hafter : after.cancelled = false) {found : IdSet × ℤ × ℤ} :
    found ∈ result.map figures ↔
      ∃ K, (Number.int K.size).below limits.minSize = false ∧ found = figuresOf members K ∧
        ∃ n, 2 ≤ n ∧ n ≤ 4 ∧ IsMeet n (bandSets limits frequencies members) K := by
  rw [List.mem_map]
  constructor
  · intro hlisted
    obtain ⟨i, hi, rfl⟩ := hlisted
    obtain ⟨⟨hK, hmeet⟩, -, hweighed⟩ := (mem_extract_iff hresult hafter).1 hi
    rw [reaches_iff, IdSet.weighted_one] at hK
    exact ⟨i.properties, hK, congrArg figures hweighed, hmeet⟩
  · intro hshared
    obtain ⟨K, hK, rfl, hmeet⟩ := hshared
    rw [← IdSet.weighted_one K, ← reaches_iff] at hK
    by_cases htwo : IsMeet 2 (bandSets limits frequencies members) K
    · exact ⟨weigh members K .outer,
        (mem_extract_iff hresult hafter).2 ⟨⟨hK, hmeet⟩, iff_of_true rfl htwo, rfl⟩, rfl⟩
    · exact ⟨weigh members K .inner, (mem_extract_iff hresult hafter).2
        ⟨⟨hK, hmeet⟩, iff_of_false (by simp [weigh]) htwo, rfl⟩, rfl⟩

end Intersection

namespace Chunk

open Intersection

variable {kind : Kind} {propertyWeights : Ledger String ℤ} {records rows : List Record}
variable {limits : Limits} {frequencies : Frequencies} {K : IdSet}

section Expanded

variable (hrows : expand (aggregate kind propertyWeights records) = .ok rows)
include hrows

/-- Expanded records have different properties. -/
theorem nodup_properties_expanded : (rows.map (·.properties)).Nodup := by
  rw [properties_expand (fun _ => members_ne_nil) hrows]
  exact nodup_propertySet_aggregate kind propertyWeights records

/-- What members share, their expanded records share too, or it is what twins have. -/
theorem exists_isMeet_expanded_iff :
    (∃ n, 2 ≤ n ∧ n ≤ 4 ∧ IsMeet n (bandSets limits frequencies records) K) ↔
      (∃ n, 2 ≤ n ∧ n ≤ 4 ∧ IsMeet n (bandSets limits frequencies rows) K) ∨
      ∃ P, 2 ≤ (records.map (·.properties)).count P ∧ K = frequencies.filterSet limits.band P := by
  rw [bandSets_eq_map, bandSets_eq_map]
  exact exists_isMeet_iff_of_nodup (nodup_properties_expanded hrows)
    fun _ => mem_map_properties_expanded hrows

variable (hfits : ∀ r ∈ records, ((groupOf records r.properties).map (·.weight)).sum < 2 ^ 63)
include hfits

theorem figuresOf_expanded (K : IdSet) : figuresOf rows K = figuresOf records K := by
  have hsupport : supportOf rows K = supportOf records K := by
    rw [supportOf_eq_sum, supportOf_eq_sum]
    exact weightOf_filter_expanded hrows hfits fun P => K.isSubset P
  rw [figuresOf, figuresOf, hsupport]

variable {α : Type} {run after : Run α} {result : List Intersection}
variable (hresult : extract limits frequencies rows run = (after, result))
variable (hafter : after.cancelled = false)
include hresult hafter

/-- What twins share is found once they are one record when somebody else holds it too. -/
theorem twins_mem_figures_iff {P : IdSet} (htwins : Twins limits frequencies records P) :
    figuresOf records (frequencies.filterSet limits.band P) ∈ result.map figures ↔
      ∃ r ∈ records, r.properties ≠ P ∧
        frequencies.filterSet limits.band P ⊆ frequencies.filterSet limits.band r.properties := by
  have hP : P ∈ rows.map (·.properties) := (mem_map_properties_expanded hrows).2 htwins.mem
  have hshared : figuresOf records (frequencies.filterSet limits.band P) ∈ result.map figures ↔
      ∃ n, 2 ≤ n ∧ n ≤ 4 ∧ IsMeet n (bandSets limits frequencies rows)
        (frequencies.filterSet limits.band P) := by
    rw [mem_figures_extract_iff hresult hafter]
    constructor
    · intro hfound
      obtain ⟨K, -, hfigures, hmeet⟩ := hfound
      have hset : frequencies.filterSet limits.band P = K := congrArg Prod.fst hfigures
      rwa [hset]
    · intro hmeet
      exact ⟨_, htwins.enough, (figuresOf_expanded hrows hfits _).symm, hmeet⟩
  rw [hshared, bandSets_eq_map,
    exists_isMeet_of_mem_iff (nodup_properties_expanded hrows) hP]
  simp only [mem_map_properties_expanded hrows, List.mem_map, exists_exists_and_eq_and]

end Expanded

/-- Expanding the chunks of users loses the sets that only twins share, and nothing else; whatever
is found has the same support and weight. So the two populations have the same intersections exactly
when somebody else holds all that is usable of what twins do. -/
theorem expansion_loses_only_twins {α : Type} {records : List Record}
    (hfits : ∀ r ∈ records, ((groupOf records r.properties).map (·.weight)).sum < 2 ^ 63) :
    ∃ rows, expand (ofUsers records) = .ok rows ∧
      ∀ (limits : Limits) (frequencies : Frequencies) (run after run' after' : Run α)
        (result result' : List Intersection),
        extract limits frequencies records run = (after, result) → after.cancelled = false →
        extract limits frequencies rows run' = (after', result') → after'.cancelled = false →
        (∀ found, found ∈ result.map figures ↔ found ∈ result'.map figures ∨
          ∃ P, Twins limits frequencies records P ∧
            found = figuresOf records (frequencies.filterSet limits.band P)) ∧
        ((∀ found, found ∈ result.map figures ↔ found ∈ result'.map figures) ↔
          ∀ P, Twins limits frequencies records P → ∃ r ∈ records, r.properties ≠ P ∧
            frequencies.filterSet limits.band P ⊆
              frequencies.filterSet limits.band r.properties) := by
  obtain ⟨rows, hrows⟩ := exists_expand_aggregate .users .empty hfits
  refine ⟨rows, hrows, fun limits frequencies run after run' after' result result' hresult hafter
    hresult' hafter' => ?_⟩
  have hfound (found : IdSet × ℤ × ℤ) : found ∈ result.map figures ↔
      found ∈ result'.map figures ∨ ∃ P, Twins limits frequencies records P ∧
        found = figuresOf records (frequencies.filterSet limits.band P) := by
    rw [mem_figures_extract_iff hresult hafter, mem_figures_extract_iff hresult' hafter']
    simp only [figuresOf_expanded hrows hfits, exists_isMeet_expanded_iff hrows]
    constructor
    · intro h
      obtain ⟨K, hK, rfl, hmeet | ⟨P, htwice, rfl⟩⟩ := h
      · exact .inl ⟨K, hK, rfl, hmeet⟩
      · exact .inr ⟨P, ⟨htwice, hK⟩, rfl⟩
    · intro h
      rcases h with ⟨K, hK, rfl, hmeet⟩ | ⟨P, ⟨htwice, hK⟩, rfl⟩
      · exact ⟨K, hK, rfl, .inl hmeet⟩
      · exact ⟨_, hK, rfl, .inr ⟨P, htwice, rfl⟩⟩
  refine ⟨hfound, ?_⟩
  constructor
  · intro hsame P htwins
    rw [← twins_mem_figures_iff hrows hfits hresult' hafter' htwins, ← hsame]
    exact (hfound _).2 (.inr ⟨P, htwins, rfl⟩)
  · intro hheld found
    rw [hfound, or_iff_left_of_imp]
    intro h
    obtain ⟨P, htwins, rfl⟩ := h
    exact (twins_mem_figures_iff hrows hfits hresult' hafter' htwins).2 (hheld P htwins)

/-- Limits that leave everything usable and ask for two properties. -/
def twoUsable : Limits := { minSize := .int 2, band := { low := .int 0, high := .int 1 } }

/-- Cid holds what the twins Ann and Bob do, and more. -/
def outheld : List Record := .single "cid" (.ofList ["dev", "ops", "qa"]) :: Pattern.twoUsers

def outheldFrequencies : Frequencies := .ofList [("dev", 1.0), ("ops", 1.0), ("qa", 0.2)]

theorem ofRecords_outheld : Frequencies.ofRecords outheld = .ok outheldFrequencies := by
  have hshares : (heldProperties outheld).toList.map
      (fun property => (property, Frequencies.shareOf outheld property)) =
      [("dev", 1.0), ("ops", 1.0), ("qa", 0.2)] := by decide +kernel
  rw [Frequencies.ofRecords_eq (by decide), hshares]
  rfl

theorem outheld_twins_are_found : ∃ rows,
    (∀ r ∈ outheld, ((groupOf outheld r.properties).map (·.weight)).sum < 2 ^ 63) ∧
    Frequencies.ofRecords outheld = .ok outheldFrequencies ∧
    expand (ofUsers outheld) = .ok rows ∧
    (extract twoUsable outheldFrequencies outheld (Run.unwatched : Run Unit)).1.cancelled = false ∧
    (extract twoUsable outheldFrequencies rows (Run.unwatched : Run Unit)).1.cancelled = false ∧
    (.ofList ["dev", "ops"], 5, 10) ∈
      (extract twoUsable outheldFrequencies rows (Run.unwatched : Run Unit)).2.map figures ∧
    ∀ found, found ∈
        (extract twoUsable outheldFrequencies outheld (Run.unwatched : Run Unit)).2.map figures ↔
      found ∈
        (extract twoUsable outheldFrequencies rows (Run.unwatched : Run Unit)).2.map figures := by
  have hfits : ∀ r ∈ outheld, ((groupOf outheld r.properties).map (·.weight)).sum < 2 ^ 63 := by
    decide +kernel
  have hexpanded : expand (ofUsers outheld) = .ok [⟨"ann", .ofList ["dev", "ops"], 4, by decide⟩,
      .single "cid" (.ofList ["dev", "ops", "qa"])] := by cbv
  obtain ⟨rows, hrows, hlost⟩ := expansion_loses_only_twins (α := Unit) hfits
  obtain rfl := Except.ok.inj (hrows.symm.trans hexpanded)
  have hraw : (extract twoUsable outheldFrequencies outheld
      (Run.unwatched : Run Unit)).1.cancelled = false := by decide +kernel
  have hfew : (extract twoUsable outheldFrequencies [⟨"ann", .ofList ["dev", "ops"], 4, by decide⟩,
      .single "cid" (.ofList ["dev", "ops", "qa"])]
      (Run.unwatched : Run Unit)).1.cancelled = false := by decide +kernel
  obtain ⟨-, hsame⟩ := hlost twoUsable outheldFrequencies _ _ _ _ _ _ Prod.mk.eta.symm hraw
    Prod.mk.eta.symm hfew
  refine ⟨_, hfits, ofRecords_outheld, hrows, hraw, hfew, by decide +kernel,
    hsame.2 fun P htwins => ?_⟩
  have honly : ∀ P ∈ outheld.map (·.properties), 2 ≤ (outheld.map (·.properties)).count P →
      P = .ofList ["dev", "ops"] := by decide +kernel
  obtain rfl := honly P htwins.mem htwins.twice
  exact ⟨_, List.mem_cons_self, by decide +kernel, IdSet.subset_iff.1 (by decide +kernel)⟩

/-- Ann and Bob share two roles, but their one expanded record has nobody to share them with. -/
theorem twins_are_lost : ∃ frequencies rows,
    (Pattern.twoUsers.map (·.oid)).Nodup ∧
    Limits.check (.int 2) (.int 0) (.int 1) = .ok twoUsable ∧
    Frequencies.ofRecords Pattern.twoUsers = .ok frequencies ∧
    expand (ofUsers Pattern.twoUsers) = .ok rows ∧
    (extract twoUsable frequencies Pattern.twoUsers (Run.unwatched : Run Unit)).2.map figures =
      [(.ofList ["dev", "ops"], 4, 8)] ∧
    (extract twoUsable frequencies rows (Run.unwatched : Run Unit)).2 = [] := by
  have hrows : expand (ofUsers Pattern.twoUsers) =
      .ok [⟨"ann", .ofList ["dev", "ops"], 4, by decide⟩] := by cbv
  exact ⟨_, _, by decide, rfl, Frequencies.ofRecords_eq (by decide), hrows, by decide +kernel,
    by decide +kernel⟩

end Chunk
end RoleMining
