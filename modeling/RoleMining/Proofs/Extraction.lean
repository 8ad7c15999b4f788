import Mathlib.Algebra.BigOperators.Group.List.Basic
import RoleMining.Proofs.Discovery

/-!
# Extraction against its plain definition

An extraction leaves out the members with too few usable properties before it looks at any pair. A
shared set that is large enough is contained in each of the usable sets it comes from, so the
members left out could never have taken part.
-/
namespace RoleMining.Intersection

variable {α : Type} {limits : Limits} {frequencies : Frequencies} {members : List Record}
variable {run after : Run α} {result : List Intersection}

/-- The usable properties of every member, of those with few of them too. -/
def bandSets (limits : Limits) (frequencies : Frequencies) (members : List Record) : List IdSet :=
  members.map fun m => frequencies.filterSet limits.band m.properties

theorem usableSets_eq_filter (limits : Limits) (frequencies : Frequencies)
    (members : List Record) : usableSets limits frequencies members =
      (bandSets limits frequencies members).filter (reaches (fun _ => 1) limits.minSize) := by
  unfold usableSets bandSets
  congr 1
  funext s
  rw [reaches, IdSet.weighted_one]

/-- Leaving out members with too few usable properties loses no set that is large enough. -/
theorem isMeet_usableSets_iff {n : ℕ} {K : IdSet}
    (hK : reaches (fun _ => 1) limits.minSize K = true) :
    IsMeet n (usableSets limits frequencies members) K ↔
      IsMeet n (bandSets limits frequencies members) K := by
  rw [usableSets_eq_filter]
  exact isMeet_filter_iff fun s _ hs => reaches_mono (fun _ _ => by decide) hs hK

theorem bandSets_perm {members' : List Record} (h : members.Perm members') :
    (bandSets limits frequencies members).Perm (bandSets limits frequencies members') :=
  h.map _

theorem supportOf_eq_sum (members : List Record) (K : IdSet) :
    supportOf members K =
      ((members.filter fun m => K.isSubset m.properties).map (·.weight)).sum :=
  total_eq_sum _

theorem supportOf_perm {members' : List Record} (h : members.Perm members') (K : IdSet) :
    supportOf members K = supportOf members' K := by
  rw [supportOf_eq_sum, supportOf_eq_sum]
  exact ((h.filter _).map _).sum_eq

theorem supportOf_le_sum (members : List Record) (K : IdSet) :
    supportOf members K ≤ (members.map (·.weight)).sum := by
  rw [supportOf_eq_sum]
  refine (List.filter_sublist.map _).sum_le_sum fun w hw => ?_
  obtain ⟨r, -, rfl⟩ := List.mem_map.1 hw
  exact le_trans (by decide) r.positive

theorem ordered_iff (a b : Intersection) : ordered a b = true ↔
    b.weight < a.weight ∨
      (a.weight = b.weight ∧ a.properties.toList ≤ b.properties.toList) := by
  simp [ordered, IdSet.keyAtMost_iff]

/-- An extraction lists what the passes found among the usable sets, weighed and sorted. -/
theorem exists_found_of_extract
    (hresult : extract limits frequencies members run = (after, result)) :
    ∃ found, collectIntersections (reaches (fun _ => 1) limits.minSize)
        (usableSets limits frequencies members) run = (after, found) ∧
      result = (found.entries.map fun e => weigh members e.1 e.2).mergeSort ordered := by
  unfold extract at hresult
  generalize hfound : collectIntersections _ _ run = pair at hresult ⊢
  obtain ⟨rfl, rfl⟩ := Prod.mk.inj hresult
  exact ⟨pair.2, rfl, rfl⟩

theorem mem_extract_iff (hresult : extract limits frequencies members run = (after, result))
    (hafter : after.cancelled = false) {i : Intersection} :
    i ∈ result ↔
      (reaches (fun _ => 1) limits.minSize i.properties = true ∧
        ∃ n, 2 ≤ n ∧ n ≤ 4 ∧ IsMeet n (bandSets limits frequencies members) i.properties) ∧
      (i.provenance = .outer ↔ IsMeet 2 (bandSets limits frequencies members) i.properties) ∧
      i = weigh members i.properties i.provenance := by
  obtain ⟨found, hfound, rfl⟩ := exists_found_of_extract hresult
  have hmono : ∀ s t : IdSet, s ⊆ t → reaches (fun _ => 1) limits.minSize s = true →
      reaches (fun _ => 1) limits.minSize t = true := fun s t => reaches_mono fun _ _ => by decide
  have hmem {K : IdSet} {p : Provenance} :=
    find?_collectIntersections (K := K) (p := p) hmono hfound hafter
  rw [List.mem_mergeSort, List.mem_map]
  constructor
  · intro hlisted
    rcases hlisted with ⟨⟨K, p⟩, hentry, rfl⟩
    obtain ⟨⟨hK, n, hlow, hhigh, hmeet⟩, hp⟩ := hmem.1 (Ledger.mem_entries_iff.1 hentry)
    rw [isMeet_usableSets_iff hK] at hmeet hp
    exact ⟨⟨hK, n, hlow, hhigh, hmeet⟩, hp, rfl⟩
  · intro hshared
    rcases hshared with ⟨⟨hK, n, hlow, hhigh, hmeet⟩, hp, hi⟩
    refine ⟨(i.properties, i.provenance), Ledger.mem_entries_iff.2 (hmem.2 ⟨⟨hK, n, hlow, hhigh,
      (isMeet_usableSets_iff hK).2 hmeet⟩, hp.trans (isMeet_usableSets_iff hK).symm⟩), hi.symm⟩

theorem nodup_properties_extract
    (hresult : extract limits frequencies members run = (after, result)) :
    (result.map (·.properties)).Nodup := by
  obtain ⟨found, -, rfl⟩ := exists_found_of_extract hresult
  rw [((List.mergeSort_perm _ _).map _).nodup_iff, List.map_map]
  exact found.nodup

theorem pairwise_extract (hresult : extract limits frequencies members run = (after, result)) :
    result.Pairwise (Precedes (·.weight) (·.properties)) := by
  have hnodup := nodup_properties_extract hresult
  obtain ⟨found, -, rfl⟩ := exists_found_of_extract hresult
  exact pairwise_mergeSort_precedes ordered_iff hnodup

/-- An extraction that is not cancelled lists one object for each set that is large enough and
shared by two, three or four members, all of them taken with their usable properties and none left
out. The object is outer when two members give the set already; its support is the weight of the
members that hold the whole set, and its weight is that times the size. Heavier objects come first,
then smaller keys, and the order of the members does not matter. -/
theorem extract_lists_shared_sets
    (hresult : extract limits frequencies members run = (after, result))
    (hafter : after.cancelled = false) :
    (∀ K, K ∈ result.map (·.properties) ↔ (Number.int K.size).below limits.minSize = false ∧
      ∃ n, 2 ≤ n ∧ n ≤ 4 ∧
        IsMeet n (members.map fun m => frequencies.filterSet limits.band m.properties) K) ∧
    (result.map (·.properties)).Nodup ∧
    (∀ i ∈ result,
      (i.provenance = .outer ↔
        IsMeet 2 (members.map fun m => frequencies.filterSet limits.band m.properties)
          i.properties) ∧
      i.support =
        ((members.filter fun m => i.properties.isSubset m.properties).map (·.weight)).sum ∧
      i.weight = i.support * i.properties.size) ∧
    result.Pairwise (fun i j => j.weight < i.weight ∨
      (i.weight = j.weight ∧ i.properties.toList < j.properties.toList)) ∧
    ∀ (members' : List Record) (run' after' : Run α) (result' : List Intersection),
      members.Perm members' → extract limits frequencies members' run' = (after', result') →
      after'.cancelled = false → result' = result := by
  refine ⟨fun K => ?_, nodup_properties_extract hresult, fun i hi => ?_, pairwise_extract hresult,
    ?_⟩
  · rw [← IdSet.weighted_one K, ← reaches_iff, List.mem_map]
    constructor
    · intro hlisted
      rcases hlisted with ⟨i, hi, rfl⟩
      exact ((mem_extract_iff hresult hafter).1 hi).1
    · intro hK
      by_cases htwo : IsMeet 2 (bandSets limits frequencies members) K
      · exact ⟨weigh members K .outer, (mem_extract_iff hresult hafter).2
          ⟨hK, iff_of_true rfl htwo, rfl⟩, rfl⟩
      · exact ⟨weigh members K .inner, (mem_extract_iff hresult hafter).2
          ⟨hK, iff_of_false (by simp [weigh]) htwo, rfl⟩, rfl⟩
  · obtain ⟨-, hp, hi⟩ := (mem_extract_iff hresult hafter).1 hi
    rw [← supportOf_eq_sum]
    refine ⟨hp, congrArg support hi, ?_⟩
    rw [hi]
    rfl
  · intro members' run' after' result' hperm hresult' hafter'
    refine eq_of_pairwise_of_mem_iff (fun _ _ => Precedes.asymm) (pairwise_extract hresult')
      (pairwise_extract hresult) fun i => ?_
    rw [mem_extract_iff hresult hafter, mem_extract_iff hresult' hafter', weigh, weigh,
      supportOf_perm hperm]
    simp only [isMeet_perm_iff (bandSets_perm hperm)]

/-- Two members share two usable properties; a third one has too few to matter. -/
def sharing : List Record :=
  [.single "ann" (.ofList ["a", "b", "c"]), .single "bob" (.ofList ["a", "b"]),
    .single "cid" (.ofList ["a"])]

theorem extract_lists_shared_pair : ∃ (after : Run Unit) (result : List Intersection),
    extract { minSize := 2, band := { low := 0, high := 1 } } (.ofList [("a", 1), ("b", 1)])
      sharing Run.unwatched = (after, result) ∧
    after.cancelled = false ∧ .ofList ["a", "b"] ∈ result.map (·.properties) := by
  have hafter : (extract { minSize := 2, band := { low := 0, high := 1 } }
      (.ofList [("a", 1), ("b", 1)]) sharing (Run.unwatched : Run Unit)).1.cancelled = false := by
    decide +kernel
  have hspec := extract_lists_shared_sets Prod.mk.eta.symm hafter
  have hmeet : IsMeet 2 (bandSets { minSize := 2, band := { low := 0, high := 1 } }
      (.ofList [("a", 1), ("b", 1)]) sharing) (.ofList ["a", "b"]) :=
    isMeet_two_iff.2 (by decide +kernel)
  exact ⟨_, _, Prod.mk.eta.symm, hafter,
    (hspec.1 _).2 ⟨by decide, 2, le_rfl, by omega, hmeet⟩⟩

end RoleMining.Intersection
