import RoleMining.Pattern
import RoleMining.Proofs.Ledger
import RoleMining.Proofs.Size

/-!
# The weights of a list of chunks

Chunks carry the weights of their identifiers beside them, and detection gathers these in one ledger
for each axis. Chunks that agree on the weights of what they share gather into a ledger that holds
the weight of every listed identifier and nothing else, so its values sum up to the weighted size of
the population.
-/
namespace RoleMining

namespace Ledger

variable {l : Ledger String ℤ} {s : IdSet} {weight : String → ℤ}

/-- The ledger holds the weight of each element of a set and knows no other identifier. -/
def Weighs (l : Ledger String ℤ) (s : IdSet) (weight : String → ℤ) : Prop :=
  ∀ x value, l.find? x = some value ↔ x ∈ s ∧ value = weight x

theorem Weighs.mem_keys (h : l.Weighs s weight) {x : String} : x ∈ l.keys ↔ x ∈ s := by
  simp [mem_keys_iff, h x]

theorem Weighs.total_values (h : l.Weighs s weight) :
    RoleMining.total l.values = s.weighted weight := by
  have hvalues := l.values_eq_map fun x value hx => ((h x value).1 hx).2
  have hperm : l.keys.Perm s.toList :=
    (List.perm_ext_iff_of_nodup l.nodup s.nodup_toList).2 fun x => h.mem_keys
  rw [total_eq_sum, hvalues, IdSet.weighted_eq_sum_map]
  exact (hperm.map weight).sum_eq

theorem Weighs.weightIn_eq (h : l.Weighs s weight) {x : String} (hx : x ∈ s) :
    weightIn l.find? x = weight x := by
  rw [weightIn, (h x _).2 ⟨hx, rfl⟩, Option.getD_some]

theorem Weighs.weightIn_pos (h : l.Weighs s weight) (hpos : ∀ x ∈ s, 1 ≤ weight x) (x : String) :
    1 ≤ weightIn l.find? x := by
  by_cases hx : x ∈ s
  · rw [h.weightIn_eq hx]
    exact hpos x hx
  · rw [weightIn, find?_eq_none_iff.2 (fun hkey => hx (h.mem_keys.1 hkey)), Option.getD_none]

theorem Weighs.weighted_weightIn (h : l.Weighs s weight) {t : IdSet} (ht : t ⊆ s) :
    t.weighted (weightIn l.find?) = t.weighted weight :=
  IdSet.weighted_congr fun x hx => h.weightIn_eq (ht x hx)

end Ledger

namespace Chunk

variable {weight : String → ℤ}

/-- The weights beside some identifiers give each of them its weight, which is at least one. -/
def Measures (weight : String → ℤ) (ids : List String) (map : Ledger String ℤ) : Prop :=
  ∀ x ∈ ids, map.find? x = some (weight x) ∧ 1 ≤ weight x

theorem mem_of_find?_weightsBeside {ids : List String} {weights : List ℤ} {x : String} {value : ℤ}
    (h : (weightsBeside ids weights).find? x = some value) : x ∈ ids := by
  rw [weightsBeside, Ledger.find?_ofList] at h
  exact (List.of_mem_zip (List.mem_reverse.1 (mem_of_valueAt h))).1

theorem Measures.weighs {ids : List String} {weights : List ℤ}
    (h : Measures weight ids (weightsBeside ids weights)) :
    (weightsBeside ids weights).Weighs (.ofList ids) weight := by
  intro x value
  rw [IdSet.mem_ofList]
  constructor
  · intro hx
    have hmem := mem_of_find?_weightsBeside hx
    rw [(h x hmem).1, Option.some_inj] at hx
    exact ⟨hmem, hx.symm⟩
  · intro hvalue
    rcases hvalue with ⟨hx, rfl⟩
    exact (h x hx).1

/-- Weights gathered from chunks that agree on them. -/
theorem weighs_foldl_update {chunks : List Chunk} {ids : Chunk → List String}
    {map : Chunk → Ledger String ℤ} (h : ∀ c ∈ chunks, (map c).Weighs (.ofList (ids c)) weight) :
    (chunks.foldl (fun weights c => weights.update (map c)) Ledger.empty).Weighs
      (.ofList (chunks.flatMap ids)) weight := by
  intro x value
  rw [← List.foldl_map, IdSet.mem_ofList, List.mem_flatMap]
  have hagree : ∀ m ∈ chunks.map map, ∀ value, m.find? x = some value → value = weight x := by
    intro m hm value hvalue
    obtain ⟨c, hc, rfl⟩ := List.mem_map.1 hm
    exact ((h c hc x value).1 hvalue).2
  by_cases hx : ∃ c ∈ chunks, x ∈ ids c
  · have hknown : ∃ m ∈ chunks.map map, x ∈ m.keys := by
      obtain ⟨c, hc, hxc⟩ := hx
      exact ⟨map c, List.mem_map_of_mem hc, (h c hc).mem_keys.2 (IdSet.mem_ofList.2 hxc)⟩
    rw [Ledger.find?_foldl_update _ hagree hknown, Option.some_inj]
    exact ⟨fun hv => ⟨hx, hv.symm⟩, fun hv => hv.2.symm⟩
  · have habsent : ∀ m ∈ chunks.map map, x ∉ m.keys := by
      intro m hm hkey
      obtain ⟨c, hc, rfl⟩ := List.mem_map.1 hm
      exact hx ⟨c, hc, IdSet.mem_ofList.1 ((h c hc).mem_keys.1 hkey)⟩
    rw [Ledger.find?_foldl_update_of_absent _ habsent, Ledger.find?_empty]
    simp [hx]

/-- Every identifier has one weight of at least one in all the chunks that list it. -/
structure Consistent (bodyWeight supportWeight : String → ℤ) (chunks : List Chunk) : Prop where
  members : ∀ c ∈ chunks, Measures bodyWeight c.members c.memberWeightMap
  properties : ∀ c ∈ chunks, Measures supportWeight c.properties c.propertyWeightMap

variable {bodyWeight supportWeight : String → ℤ} {chunks : List Chunk}

theorem Consistent.bodyWeights_weighs (h : Consistent bodyWeight supportWeight chunks) :
    (Pattern.bodyWeights chunks).Weighs (.ofList (chunks.flatMap (·.members))) bodyWeight :=
  weighs_foldl_update fun c hc => (h.members c hc).weighs

theorem Consistent.supportWeights_weighs (h : Consistent bodyWeight supportWeight chunks) :
    (Pattern.supportWeights chunks).Weighs (.ofList (chunks.flatMap (·.properties)))
      supportWeight :=
  weighs_foldl_update fun c hc => (h.properties c hc).weighs

theorem Consistent.total_propertyWeights (h : Consistent bodyWeight supportWeight chunks)
    {c : Chunk} (hc : c ∈ chunks) :
    total c.propertyWeightMap.values = c.propertySet.weighted supportWeight :=
  (h.properties c hc).weighs.total_values

theorem Consistent.one_le_bodyWeight (h : Consistent bodyWeight supportWeight chunks) :
    ∀ x ∈ IdSet.ofList (chunks.flatMap (·.members)), 1 ≤ bodyWeight x := by
  intro x hx
  obtain ⟨c, hc, hxc⟩ := List.mem_flatMap.1 (IdSet.mem_ofList.1 hx)
  exact (h.members c hc x hxc).2

theorem Consistent.one_le_supportWeight (h : Consistent bodyWeight supportWeight chunks) :
    ∀ x ∈ IdSet.ofList (chunks.flatMap (·.properties)), 1 ≤ supportWeight x := by
  intro x hx
  obtain ⟨c, hc, hxc⟩ := List.mem_flatMap.1 (IdSet.mem_ofList.1 hx)
  exact (h.properties c hc x hxc).2

end Chunk
end RoleMining
