import RoleMining.Proofs.Chunk.Partition
import RoleMining.Proofs.Cluster.Links
import RoleMining.Proofs.Order.Frequencies

/-!
# Chunks expanded to records

A chunk expands to one record with its properties and its weight. Whatever is summed over expanded
records, each counted by its weight, is therefore what is summed over the records behind the chunks,
as long as the records of no chunk weigh too much for a word together. Frequencies are quotients of
such sums, and so are the figures of the chunks taken as one group.
-/
namespace RoleMining

theorem min?_eq_of_mem_iff {xs ys : List ℕ} (h : ∀ n, n ∈ xs ↔ n ∈ ys) : xs.min? = ys.min? :=
  Option.ext fun n => by simp only [List.min?_eq_some_iff, h]

theorem max?_eq_of_mem_iff {xs ys : List ℕ} (h : ∀ n, n ∈ xs ↔ n ∈ ys) : xs.max? = ys.max? :=
  Option.ext fun n => by simp only [List.max?_eq_some_iff, h]

/-- How many assignments some records stand for, each record as often as it weighs. -/
def assignmentsOf (records : List Record) : ℤ :=
  (records.map fun r => r.weight * (r.properties.size : ℤ)).sum

namespace Cluster

variable {α : Type} [Arithmetic α]

/-- The figures of a group are computed from the members behind it as they are. -/
structure Statistics.Measures (s : Statistics α) (records : List Record) : Prop where
  membersCount_eq : s.membersCount = weightOf records
  propertiesCount_eq : s.propertiesCount = (heldProperties records).size
  density_eq : s.density =
    if (heldProperties records).size = 0 then Arithmetic.ofInt 0
    else Arithmetic.roundPlaces 4 (Arithmetic.ratio (assignmentsOf records)
      (weightOf records * (heldProperties records).size))
  mean_eq : s.mean =
    if records = [] then Arithmetic.ofInt 0
    else Arithmetic.roundPlaces 4 (Arithmetic.ratio (assignmentsOf records) (weightOf records))
  smallest_eq : s.smallest = (records.map (·.properties.size)).min?.getD 0
  largest_eq : s.largest = (records.map (·.properties.size)).max?.getD 0

end Cluster

namespace Chunk

variable {kind : Kind} {propertyWeights : Ledger String ℤ} {records rows : List Record}

/-! ### Sums over expanded records -/

section Expanded

variable (hrows : expand (aggregate kind propertyWeights records) = .ok rows)
include hrows

/-- Property sets are expanded as they are. -/
theorem mem_map_properties_expanded {P : IdSet} :
    P ∈ rows.map (·.properties) ↔ P ∈ records.map (·.properties) := by
  rw [properties_expand (fun _ => members_ne_nil) hrows]
  simp only [List.mem_map]
  constructor
  · intro h
    obtain ⟨c, hc, rfl⟩ := h
    exact exists_mem_groupOf hc
  · intro h
    obtain ⟨r, hr, rfl⟩ := h
    exact ⟨_, mem_aggregate_iff.2 ⟨r, hr, rfl⟩, propertySet_ofGroup⟩

theorem heldProperties_expanded : heldProperties rows = heldProperties records := by
  have hheld (xs : List Record) (x : String) :
      x ∈ heldProperties xs ↔ ∃ P ∈ xs.map (·.properties), x ∈ P := by
    simp [mem_heldProperties]
  exact IdSet.ext_mem fun x => by
    simp only [hheld, mem_map_properties_expanded hrows]

variable (hfits : ∀ r ∈ records, ((groupOf records r.properties).map (·.weight)).sum < 2 ^ 63)
include hfits

/-- A sum over expanded records, each counted by its weight, is one over the records. -/
theorem sum_expanded (f : IdSet → ℤ) :
    (rows.map fun r => f r.properties * r.weight).sum =
      (records.map fun r => f r.properties * r.weight).sum := by
  have hmap : rows.map (fun r => f r.properties * r.weight) =
      (aggregate kind propertyWeights records).map fun c => f c.propertySet * c.weight := by
    rw [expand_eq fun _ => members_ne_nil] at hrows
    refine map_eq_of_mapM_eq_ok (fun c r hr => ?_) hrows
    obtain ⟨-, hproperties, hweight⟩ := Record.make_eq_ok_iff.1 hr
    rw [hproperties, hweight]
  rw [hmap, sum_aggregate kind propertyWeights f hfits]

theorem weightOf_filter_expanded (p : IdSet → Bool) :
    weightOf (rows.filter fun r => p r.properties) =
      weightOf (records.filter fun r => p r.properties) := by
  rw [weightOf_filter, weightOf_filter]
  exact sum_expanded hrows hfits fun P => if p P then 1 else 0

theorem weightOf_expanded : weightOf rows = weightOf records := by
  simpa using weightOf_filter_expanded hrows hfits fun _ => true

end Expanded

/-- Chunks are expanded unless the records of one weigh too much for a word. -/
theorem exists_expand_aggregate (kind : Kind) (propertyWeights : Ledger String ℤ)
    (hfits : ∀ r ∈ records, ((groupOf records r.properties).map (·.weight)).sum < 2 ^ 63) :
    ∃ rows, expand (aggregate kind propertyWeights records) = .ok rows := by
  refine (exists_expand_iff fun _ => members_ne_nil).2 fun c hc => ?_
  obtain ⟨r, hr, hkey⟩ := exists_mem_groupOf hc
  exact one_le_weight hc (hkey ▸ hfits r hr)

/-! ### Figures of all chunks -/

theorem unionOf_aggregate (kind : Kind) (propertyWeights : Ledger String ℤ)
    (records : List Record) :
    Cluster.unionOf (aggregate kind propertyWeights records) = heldProperties records := by
  refine IdSet.ext_mem fun x => ?_
  rw [Cluster.unionOf, Cluster.mem_foldl_addAll_empty, mem_heldProperties]
  constructor
  · intro h
    obtain ⟨c, hc, hx⟩ := h
    obtain ⟨r, hr, rfl⟩ := mem_aggregate_iff.1 hc
    exact ⟨r, hr, hx⟩
  · intro h
    obtain ⟨r, hr, hx⟩ := h
    exact ⟨_, mem_aggregate_iff.2 ⟨r, hr, rfl⟩, hx⟩

/-- Chunks have as many properties as their records do. -/
theorem mem_sizes_aggregate {n : ℕ} :
    n ∈ (aggregate kind propertyWeights records).map (·.properties.length) ↔
      n ∈ records.map (·.properties.size) := by
  simp only [List.mem_map, mem_aggregate_iff]
  constructor
  · intro h
    obtain ⟨c, ⟨r, hr, rfl⟩, hn⟩ := h
    exact ⟨r, hr, hn⟩
  · intro h
    obtain ⟨r, hr, hn⟩ := h
    exact ⟨_, ⟨r, hr, rfl⟩, hn⟩

theorem total_assignments_aggregate (kind : Kind) (propertyWeights : Ledger String ℤ)
    (hfits : ∀ r ∈ records, ((groupOf records r.properties).map (·.weight)).sum < 2 ^ 63) :
    total ((aggregate kind propertyWeights records).map
      fun c => c.weight * (c.properties.length : ℤ)) = assignmentsOf records := by
  have hlength : ∀ c ∈ aggregate kind propertyWeights records,
      c.weight * (c.properties.length : ℤ) = (c.propertySet.size : ℤ) * c.weight := by
    intro c hc
    obtain ⟨r, -, rfl⟩ := mem_aggregate_iff.1 hc
    rw [propertySet_ofGroup, mul_comm]
    rfl
  rw [total_eq_sum, List.map_congr_left hlength,
    sum_aggregate kind propertyWeights (fun P => (P.size : ℤ)) hfits]
  simp only [assignmentsOf, mul_comm]

/-- The figures of all chunks are those of the records behind them. -/
theorem measures_aggregate {α : Type} [Arithmetic α] (kind : Kind)
    (propertyWeights : Ledger String ℤ) (similarities : List α)
    (hfits : ∀ r ∈ records, ((groupOf records r.properties).map (·.weight)).sum < 2 ^ 63) :
    (Cluster.Statistics.ofChunks (aggregate kind propertyWeights records) similarities).Measures
      records := by
  have hmembers : total ((aggregate kind propertyWeights records).map (·.weight)) =
      weightOf records :=
    (total_eq_sum _).trans (sum_weight_aggregate kind propertyWeights hfits)
  have hassignments := total_assignments_aggregate kind propertyWeights hfits
  have hcells : weightOf records * ((heldProperties records).size : ℤ) = 0 ↔
      (heldProperties records).size = 0 := by
    rw [mul_eq_zero, weightOf_eq_zero_iff, Int.natCast_eq_zero, or_iff_right_iff_imp]
    rintro rfl
    rfl
  refine {
    membersCount_eq := hmembers
    propertiesCount_eq := congrArg IdSet.size (unionOf_aggregate _ _ _)
    density_eq := ?density
    mean_eq := ?mean
    smallest_eq := congrArg (Option.getD · 0) (min?_eq_of_mem_iff fun n => mem_sizes_aggregate)
    largest_eq := congrArg (Option.getD · 0) (max?_eq_of_mem_iff fun n => mem_sizes_aggregate) }
  case density =>
    unfold Cluster.Statistics.ofChunks
    simp only [hmembers, hassignments, unionOf_aggregate, hcells]
  case mean =>
    unfold Cluster.Statistics.ofChunks
    simp only [hmembers, hassignments, weightOf_eq_zero_iff]

/-! ### One population, told twice -/

/-- A group weighs no more than everyone, so its weights fit a word as well. -/
theorem groups_fit (hweight : weightOf records < 2 ^ 53) :
    ∀ r ∈ records, ((groupOf records r.properties).map (·.weight)).sum < 2 ^ 63 := fun r _ =>
  lt_trans ((weightOf_le_of_sublist List.filter_sublist).trans_lt hweight) (by decide)

theorem ofRecords_expanded (hrows : expand (aggregate kind propertyWeights records) = .ok rows)
    (hweight : weightOf records < 2 ^ 53) :
    Frequencies.ofRecords rows = Frequencies.ofRecords records := by
  have hfits := groups_fit hweight
  have hshare (property : String) :
      Frequencies.shareOf rows property = Frequencies.shareOf records property := by
    have hholding : weightOf (Frequencies.holding rows property) =
        weightOf (Frequencies.holding records property) :=
      weightOf_filter_expanded hrows hfits fun P => property ∈ P
    unfold Frequencies.shareOf
    rw [weightOf_expanded hrows hfits, hholding]
  rw [Frequencies.ofRecords_eq hweight,
    Frequencies.ofRecords_eq ((weightOf_expanded hrows hfits).trans_lt hweight),
    heldProperties_expanded hrows]
  simp only [hshare]

/-- What is computed with weights from the chunks of users is what the users themselves give: the
frequencies of the expanded records, the weight of those that hold a set, and the figures of all
chunks as one group. -/
theorem expanded_chunks_measure_alike {records : List Record}
    (hweight : weightOf records < 2 ^ 53) :
    ∃ rows, expand (ofUsers records) = .ok rows ∧
      (∃ frequencies, Frequencies.ofRecords records = .ok frequencies ∧
        Frequencies.ofRecords rows = .ok frequencies) ∧
      (∀ K : IdSet, weightOf (rows.filter fun r => K.isSubset r.properties) =
        weightOf (records.filter fun r => K.isSubset r.properties)) ∧
      ∀ (α : Type) [Arithmetic α] (similarities : List α),
        (Cluster.Statistics.ofChunks (ofUsers records) similarities).Measures records := by
  have hfits := groups_fit hweight
  obtain ⟨rows, hrows⟩ := exists_expand_aggregate .users .empty hfits
  have hfrequencies := Frequencies.ofRecords_eq hweight
  exact ⟨rows, hrows, ⟨_, hfrequencies, (ofRecords_expanded hrows hweight).trans hfrequencies⟩,
    fun K => weightOf_filter_expanded hrows hfits fun P => K.isSubset P,
    fun α _ similarities => measures_aggregate .users .empty similarities hfits⟩

theorem reappearing_is_measured_alike : ∃ rows, weightOf reappearing < 2 ^ 53 ∧
    expand (ofUsers reappearing) = .ok rows ∧ rows.map (·.weight) = [3, 1, 1] ∧
    Frequencies.ofRecords rows = Frequencies.ofRecords reappearing ∧
    (Cluster.Statistics.ofChunks (ofUsers reappearing) ([] : List Rat)).membersCount = 5 ∧
    (Cluster.Statistics.ofChunks (ofUsers reappearing) ([] : List Rat)).density = 7 / 10 ∧
    (Cluster.Statistics.ofChunks (ofUsers reappearing) ([] : List Rat)).smallest = 0 ∧
    (Cluster.Statistics.ofChunks (ofUsers reappearing) ([] : List Rat)).largest = 2 := by
  have hweight : weightOf reappearing < 2 ^ 53 := by decide
  have hexpanded : expand (ofUsers reappearing) =
      .ok [⟨"ann", .ofList ["dev", "ops"], 3, by decide⟩, .single "bob" .empty,
        .single "ann" (.ofList ["dev"])] := by cbv
  obtain ⟨rows, hrows, ⟨frequencies, hrecords, hsame⟩, -, hfigures⟩ :=
    expanded_chunks_measure_alike hweight
  obtain rfl := Except.ok.inj (hrows.symm.trans hexpanded)
  have hmeasures := hfigures Rat []
  exact ⟨_, hweight, hexpanded, rfl, hsame.trans hrecords.symm,
    hmeasures.membersCount_eq.trans (by decide), hmeasures.density_eq.trans (by decide +kernel),
    hmeasures.smallest_eq.trans (by decide), hmeasures.largest_eq.trans (by decide)⟩

end Chunk
end RoleMining
