import Mathlib.Data.List.Sigma
import RoleMining.Proofs.Cluster.Links
import RoleMining.Proofs.Size

/-!
# The graph of a table is the graph of its rows

A row of a product counts, over the columns of a row of the table, the rows that have each column.
Every other row is met once for each property that the two records share, so the counts are the
sizes of intersections, and rows without a common property are not met at all. What the links are is
settled by the counts, so the order in which they come leaves no trace after sorting.
-/
namespace RoleMining

/-! ### Tallies -/

section Tally

variable {α : Type} [DecidableEq α] {xs : List α} {x : α} {n : ℕ}

theorem find?_foldl_tally (xs : List α) (l : Ledger α ℕ) (x : α) :
    (xs.foldl (fun counts y => counts.record y ((counts.find? y).getD 0 + 1)) l).find? x =
      if x ∈ xs then some ((l.find? x).getD 0 + xs.count x) else l.find? x := by
  induction xs generalizing l with
  | nil => simp
  | cons y ys ih =>
    rw [List.foldl_cons, ih, Ledger.find?_record]
    by_cases hxy : x = y
    · subst hxy
      by_cases hx : x ∈ ys
      · simp [hx]
        omega
      · simp [hx, List.count_eq_zero_of_not_mem hx]
    · have hyx : y ≠ x := fun h => hxy h.symm
      simp [hxy, hyx]

theorem mem_entries_tally : (x, n) ∈ (tally xs).entries ↔ n = xs.count x ∧ n ≠ 0 := by
  rw [Ledger.mem_entries_iff, tally, find?_foldl_tally, Ledger.find?_empty]
  split
  next hx =>
    have hpos := List.count_pos_iff.2 hx
    simp only [Option.getD_none, Nat.zero_add, Option.some_inj]
    omega
  next hx => simp [List.count_eq_zero_of_not_mem hx]

end Tally

/-- What each element meets at most once is met as often as there are elements that meet it. -/
theorem count_flatMap_eq_countP {β γ : Type} [DecidableEq γ] {f : β → List γ} {y : γ} {p : β → Bool}
    (h : ∀ x, (f x).count y = if p x then 1 else 0) (xs : List β) :
    (xs.flatMap f).count y = xs.countP p := by
  induction xs with
  | nil => rfl
  | cons x xs ih =>
    rw [List.flatMap_cons, List.count_append, h, ih, List.countP_cons, Nat.add_comm]

/-! ### Rows and columns -/

namespace AssignmentTable

variable {β γ : Type} {records : List Record} {r s : Record} {i j : ℕ} {o : Overlap}

theorem onesOf_map (p : β → Bool) (xs : List β) :
    onesOf (xs.map p) = (xs.zipIdx.filter fun x => p x.1).map Prod.snd := by
  rw [onesOf, List.zipIdx_map, List.filterMap_map]
  induction xs.zipIdx with
  | nil => rfl
  | cons x rest ih =>
    rw [List.filterMap_cons, ih, List.filter_cons]
    cases hp : p x.1 <;> simp [hp]

theorem mem_onesOf {row : List Bool} : i ∈ onesOf row ↔ row[i]? = some true := by
  simp [onesOf, List.mem_zipIdx_iff_getElem?]

theorem nodup_onesOf (row : List Bool) : (onesOf row).Nodup := by
  rw [← List.map_id row, onesOf_map]
  exact (List.filter_sublist.map _).nodup (List.nodup_zipIdx_map_snd row)

theorem map_fst_filter_zipIdx (p : β → Bool) (xs : List β) :
    (xs.zipIdx.filter fun x => p x.1).map Prod.fst = xs.filter p := by
  conv_rhs => rw [← List.zipIdx_map_fst 0 xs, List.filter_map]
  rfl

/-- The elements at the ones, in place of their positions. -/
theorem flatMap_onesOf_map {p : β → Bool} {xs : List β} {f : ℕ → List γ} {g : β → List γ}
    (h : ∀ x pos, xs[pos]? = some x → f pos = g x) :
    (onesOf (xs.map p)).flatMap f = (xs.filter p).flatMap g := by
  rw [onesOf_map, ← map_fst_filter_zipIdx p xs, List.flatMap_map, List.flatMap_map]
  refine List.flatMap_congr fun x hx => ?_
  exact h x.1 x.2 (List.mem_zipIdx_iff_getElem?.1 (List.mem_filter.1 hx).1)

theorem length_onesOf_map (p : β → Bool) (xs : List β) :
    (onesOf (xs.map p)).length = (xs.filter p).length := by
  rw [onesOf_map, ← map_fst_filter_zipIdx p xs, List.length_map, List.length_map]

/-- The row of a record. -/
def rowOf (records : List Record) (r : Record) : List Bool :=
  (heldProperties records).toList.map fun x => decide (x ∈ r.properties)

/-- The properties of a record among those that are held. -/
theorem filter_heldProperties (hr : r ∈ records) :
    (heldProperties records).toList.filter (fun x => decide (x ∈ r.properties)) =
      r.properties.toList := by
  have hset : (heldProperties records).filter (fun x => decide (x ∈ r.properties)) =
      r.properties := by
    refine IdSet.ext_mem fun x => ?_
    rw [IdSet.mem_filter, decide_eq_true_eq, and_iff_right_iff_imp]
    exact fun hx => mem_heldProperties.2 ⟨r, hr, hx⟩
  exact congrArg IdSet.toList hset

theorem sums_ofRecords (records : List Record) :
    (ofRecords records).sums = records.map fun r => r.properties.size := by
  rw [sums, ofRecords, List.map_map]
  refine List.map_congr_left fun r hr => ?_
  have hlength := length_onesOf_map (fun x => decide (x ∈ r.properties))
    (heldProperties records).toList
  rwa [filter_heldProperties hr] at hlength

/-- The positions of the records that hold a property. -/
def holdersAt (records : List Record) (x : String) : List ℕ :=
  onesOf (records.map fun r => decide (x ∈ r.properties))

theorem getD_columns_ofRecords {x : String} (h : (heldProperties records).toList[i]? = some x) :
    (ofRecords records).columns.getD i [] = holdersAt records x := by
  have hlt : i < (ofRecords records).properties.length := (List.getElem?_eq_some_iff.1 h).1
  have hrows : ((ofRecords records).rows.map fun row => row.getD i false) =
      records.map fun r => decide (x ∈ r.properties) := by
    rw [ofRecords, List.map_map]
    refine List.map_congr_left fun r _ => ?_
    simp [h]
  rw [columns, List.getD_eq_getElem?_getD, List.getElem?_map, List.getElem?_range hlt,
    Option.map_some, Option.getD_some, hrows, holdersAt]

/-- The rows met by a row: once for each shared property. -/
def met (records : List Record) (r : Record) : List ℕ :=
  r.properties.toList.flatMap (holdersAt records)

theorem overlapsOf_ofRecords (hr : r ∈ records) :
    overlapsOf (ofRecords records).columns i (rowOf records r) =
      (tally (met records r)).entries.map fun entry => ⟨i, entry.1, entry.2⟩ := by
  have hmet : (onesOf (rowOf records r)).flatMap
      (fun column => (ofRecords records).columns.getD column []) = met records r := by
    rw [rowOf, flatMap_onesOf_map fun x pos h => getD_columns_ofRecords h,
      filter_heldProperties hr, met]
  rw [overlapsOf, hmet]

theorem count_holdersAt (records : List Record) (x : String) (j : ℕ) :
    (holdersAt records x).count j =
      if records[j]?.any fun s => decide (x ∈ s.properties) then 1 else 0 := by
  rw [holdersAt, (nodup_onesOf _).count]
  refine if_congr ?_ rfl rfl
  rw [mem_onesOf, List.getElem?_map]
  cases records[j]? <;> simp

/-- Another row is met as often as the two records share a property. -/
theorem count_met (records : List Record) (r : Record) (j : ℕ) : (met records r).count j =
    (records[j]?.map fun s => (r.properties.inter s.properties).size).getD 0 := by
  rw [met, count_flatMap_eq_countP fun x => count_holdersAt records x j]
  cases records[j]? with
  | none => simp
  | some s => exact List.countP_eq_length_filter

theorem mem_overlapsOf_ofRecords (hr : r ∈ records) :
    o ∈ overlapsOf (ofRecords records).columns i (rowOf records r) ↔
      o.first = i ∧ ∃ s, records[o.second]? = some s ∧
        o.shared = (r.properties.inter s.properties).size ∧ o.shared ≠ 0 := by
  rw [overlapsOf_ofRecords hr, List.mem_map]
  constructor
  · intro h
    obtain ⟨⟨j, shared⟩, hentry, rfl⟩ := h
    obtain ⟨hcount, hne⟩ := mem_entries_tally.1 hentry
    rw [count_met] at hcount
    refine ⟨rfl, ?_⟩
    cases hs : records[j]? with
    | none => exact absurd (by simpa [hs] using hcount) hne
    | some s => exact ⟨s, rfl, by simpa [hs] using hcount, hne⟩
  · intro h
    obtain ⟨rfl, s, hs, hshared, hne⟩ := h
    refine ⟨(o.second, o.shared), mem_entries_tally.2 ⟨?_, hne⟩, rfl⟩
    rw [count_met, hs, hshared]
    rfl

/-- The product has an entry for every two records that share a property, and it says how many. -/
theorem mem_overlaps_ofRecords : o ∈ (ofRecords records).overlaps ↔
    ∃ r s, records[o.first]? = some r ∧ records[o.second]? = some s ∧
      o.shared = (r.properties.inter s.properties).size ∧ o.shared ≠ 0 := by
  have hrow (row : List Bool) (i : ℕ) : (row, i) ∈ (ofRecords records).rows.zipIdx ↔
      ∃ r, records[i]? = some r ∧ rowOf records r = row := by
    rw [List.mem_zipIdx_iff_getElem?, ofRecords, List.getElem?_map, Option.map_eq_some_iff]
    rfl
  simp only [overlaps, List.mem_flatMap, Prod.exists, hrow]
  constructor
  · intro h
    obtain ⟨row, i, ⟨r, hr, rfl⟩, ho⟩ := h
    obtain ⟨rfl, s, hs, hshared⟩ := (mem_overlapsOf_ofRecords (List.mem_of_getElem? hr)).1 ho
    exact ⟨r, s, hr, hs, hshared⟩
  · intro h
    obtain ⟨r, s, hr, hs, hshared⟩ := h
    exact ⟨rowOf records r, o.first, ⟨r, hr, rfl⟩,
      (mem_overlapsOf_ofRecords (List.mem_of_getElem? hr)).2 ⟨rfl, s, hs, hshared⟩⟩

/-- No two entries are for the same rows. -/
theorem pairwise_overlaps (t : AssignmentTable) :
    t.overlaps.Pairwise fun a b => a.first ≠ b.first ∨ a.second ≠ b.second := by
  rw [overlaps, List.pairwise_flatMap]
  constructor
  · intro x _
    refine List.pairwise_map.2 ?_
    have hkeys := (tally ((onesOf x.1).flatMap fun column => t.columns.getD column [])).nodup
    rw [List.Nodup, List.pairwise_map] at hkeys
    exact hkeys.imp .inr
  · have hrows := List.nodup_zipIdx_map_snd t.rows
    rw [List.Nodup, List.pairwise_map] at hrows
    refine hrows.imp fun {x y} hne a ha b hb => .inl ?_
    obtain ⟨_, -, rfl⟩ := List.mem_map.1 ha
    obtain ⟨_, -, rfl⟩ := List.mem_map.1 hb
    exact hne

end AssignmentTable

/-! ### Links -/

/-- The order of links by position. -/
def Edge.Precedes (a b : Edge) : Prop :=
  a.first < b.first ∨ (a.first = b.first ∧ a.second < b.second)

theorem Edge.Precedes.asymm {a b : Edge} (h : a.Precedes b) : ¬ b.Precedes a := by
  unfold Precedes at h ⊢
  omega

namespace Graph

variable {minSimilarity minShared : Number} {records : List Record} {sets : List IdSet}
variable {e : Edge} {o : Overlap} {entries : List Overlap} {sums : List ℕ}

theorem position_of_linkOf? (h : linkOf? minSimilarity minShared sums o = some e) :
    e.first = o.first ∧ e.second = o.second := by
  unfold linkOf? at h
  dsimp only at h
  split_ifs at h <;> (obtain rfl := Option.some_inj.1 h; exact ⟨rfl, rfl⟩)

/-- Above the diagonal an entry makes the link of its two sets. -/
theorem linkOf?_eq_some_iff {s t : IdSet} (hs : sums.getD o.first 0 = s.size)
    (ht : sums.getD o.second 0 = t.size) (hshared : o.shared = (s.inter t).size)
    (hne : o.shared ≠ 0) : linkOf? minSimilarity minShared sums o = some e ↔
      o.first < o.second ∧ Similar minSimilarity minShared s t ∧
        e = ⟨o.first, o.second, jaccard s t⟩ := by
  rw [← link?_eq_some_iff]
  unfold linkOf? link? jaccard
  rw [hs, ht, ← hshared]
  dsimp only
  rw [if_neg hne]
  split
  next hle => exact iff_of_false nofun fun h => absurd h.1 (by omega)
  next hlt => exact (and_iff_right (by omega)).symm

/-- Sorted links of different rows are strictly ordered. -/
theorem pairwise_ofOverlaps
    (h : entries.Pairwise fun a b => a.first ≠ b.first ∨ a.second ≠ b.second) :
    (ofOverlaps minSimilarity minShared sums entries).edges.Pairwise Edge.Precedes := by
  have hdistinct : (entries.filterMap (linkOf? minSimilarity minShared sums)).Pairwise
      fun a b => a.first ≠ b.first ∨ a.second ≠ b.second := by
    refine List.Pairwise.filterMap _ (fun o o' hne e he e' he' => ?_) h
    obtain ⟨hfirst, hsecond⟩ := position_of_linkOf? he
    obtain ⟨hfirst', hsecond'⟩ := position_of_linkOf? he'
    rwa [hfirst, hsecond, hfirst', hsecond']
  have hsorted : (ofOverlaps minSimilarity minShared sums entries).edges.Pairwise
      fun a b => ordered a b = true := by
    refine List.pairwise_mergeSort (fun a b c => ?_) (fun a b => ?_) _
    · simp only [ordered, Bool.or_eq_true, Bool.and_eq_true, decide_eq_true_eq, beq_iff_eq]
      omega
    · simp only [ordered, Bool.or_eq_true, Bool.and_eq_true, decide_eq_true_eq, beq_iff_eq]
      omega
  have hsymm {a b : Edge} (hne : a.first ≠ b.first ∨ a.second ≠ b.second) :
      b.first ≠ a.first ∨ b.second ≠ a.second := hne.imp Ne.symm Ne.symm
  refine (hsorted.and ((List.mergeSort_perm _ ordered).symm.pairwise hdistinct hsymm)).imp ?_
  intro a b hab
  simp only [ordered, Bool.or_eq_true, Bool.and_eq_true, decide_eq_true_eq, beq_iff_eq] at hab
  unfold Edge.Precedes
  omega

/-- The links of a table of records are those of every two similar records. -/
theorem mem_ofOverlaps_iff
    (h : entries.Perm (AssignmentTable.ofRecords records).overlaps) :
    e ∈ (ofOverlaps minSimilarity minShared (AssignmentTable.ofRecords records).sums
        entries).edges ↔
      ∃ r s, records[e.first]? = some r ∧ records[e.second]? = some s ∧ e.first < e.second ∧
        Similar minSimilarity minShared r.properties s.properties ∧
        e.similarity = jaccard r.properties s.properties := by
  have hsum {i : ℕ} {r : Record} (hr : records[i]? = some r) :
      (AssignmentTable.ofRecords records).sums.getD i 0 = r.properties.size := by
    rw [AssignmentTable.sums_ofRecords, List.getD_eq_getElem?_getD, List.getElem?_map, hr]
    rfl
  rw [ofOverlaps, List.mem_mergeSort, List.mem_filterMap]
  constructor
  · intro hlink
    obtain ⟨o, ho, he⟩ := hlink
    obtain ⟨r, s, hr, hs, hshared, hne⟩ := AssignmentTable.mem_overlaps_ofRecords.1 (h.mem_iff.1 ho)
    obtain ⟨hlt, hsimilar, rfl⟩ := (linkOf?_eq_some_iff (hsum hr) (hsum hs) hshared hne).1 he
    exact ⟨r, s, hr, hs, hlt, hsimilar, rfl⟩
  · intro hlink
    obtain ⟨r, s, hr, hs, hlt, hsimilar, hquotient⟩ := hlink
    refine ⟨⟨e.first, e.second, (r.properties.inter s.properties).size⟩, h.mem_iff.2 ?_, ?_⟩
    · exact AssignmentTable.mem_overlaps_ofRecords.2 ⟨r, s, hr, hs, rfl, hsimilar.nonempty⟩
    · refine (linkOf?_eq_some_iff (hsum hr) (hsum hs) rfl hsimilar.nonempty).2
        ⟨hlt, hsimilar, ?_⟩
      rw [← hquotient]

theorem pairwise_links (minSimilarity minShared : Number) (i : ℕ) (sets : List IdSet) :
    (links minSimilarity minShared i sets).Pairwise Edge.Precedes := by
  induction sets generalizing i with
  | nil => exact .nil
  | cons s later ih =>
    rw [links, List.pairwise_append]
    refine ⟨?_, ih (i + 1), fun a ha b hb => ?_⟩
    · have hlater : later.zipIdx.Pairwise fun x y => x.2 < y.2 := by
        rw [List.pairwise_iff_getElem]
        intro a b ha hb hab
        simpa using hab
      refine List.Pairwise.filterMap _ (fun x y hlt a ha b hb => ?_) hlater
      obtain ⟨-, rfl⟩ := link?_eq_some_iff.1 ha
      obtain ⟨-, rfl⟩ := link?_eq_some_iff.1 hb
      exact .inr ⟨rfl, by simp; omega⟩
    · obtain ⟨_, _, -, -, rfl⟩ := mem_linksFrom_iff.1 ha
      obtain ⟨_, _, _, _, -, -, -, -, rfl⟩ := mem_links_iff.1 hb
      exact .inl (by simp; omega)

/-- The graph of a table is that of the records' sets, in whatever order the entries of the product
come. -/
theorem ofOverlaps_eq_ofSets (h : entries.Perm (AssignmentTable.ofRecords records).overlaps) :
    ofOverlaps minSimilarity minShared (AssignmentTable.ofRecords records).sums entries =
      ofSets minSimilarity minShared (records.map (·.properties)) := by
  have hsymm {a b : Overlap} (hne : a.first ≠ b.first ∨ a.second ≠ b.second) :
      b.first ≠ a.first ∨ b.second ≠ a.second := hne.imp Ne.symm Ne.symm
  have hentries := h.symm.pairwise (AssignmentTable.pairwise_overlaps _) hsymm
  have hedges : (ofOverlaps minSimilarity minShared (AssignmentTable.ofRecords records).sums
      entries).edges = links minSimilarity minShared 0 (records.map (·.properties)) := by
    refine eq_of_pairwise_of_mem_iff (fun _ _ => Edge.Precedes.asymm) (pairwise_ofOverlaps hentries)
      (pairwise_links ..) fun e => ?_
    rw [mem_ofOverlaps_iff h, mem_links_iff]
    simp only [List.getElem?_map, Option.map_eq_some_iff, zero_add]
    constructor
    · intro hlink
      obtain ⟨r, s, hr, hs, hlt, hsimilar, hquotient⟩ := hlink
      refine ⟨e.first, e.second, _, _, ⟨r, hr, rfl⟩, ⟨s, hs, rfl⟩, hlt, hsimilar, ?_⟩
      rw [← hquotient]
    · intro hlink
      obtain ⟨i, j, _, _, ⟨r, hr, rfl⟩, ⟨s, hs, rfl⟩, hlt, hsimilar, rfl⟩ := hlink
      exact ⟨r, s, hr, hs, hlt, hsimilar, rfl⟩
  have hnodes : (AssignmentTable.ofRecords records).sums.length =
      (records.map (·.properties)).length := by
    rw [AssignmentTable.sums_ofRecords, List.length_map, List.length_map]
  exact congrArg₂ Graph.mk hnodes hedges

theorem ofTable_ofRecords (minSimilarity minShared : Number) (records : List Record) :
    ofTable minSimilarity minShared (.ofRecords records) =
      ofSets minSimilarity minShared (records.map (·.properties)) :=
  ofOverlaps_eq_ofSets (.refl _)

end Graph

/-- The graph of chunks that have members is that of their property sets. -/
theorem Partition.graphOf_eq {policy : Policy} {chunks : List Chunk} {g : Graph}
    (hmembers : ∀ c ∈ chunks, c.members ≠ []) (h : Partition.graphOf policy chunks = .ok g) :
    g = .ofSets policy.minSimilarity policy.minShared (chunks.map (·.propertySet)) := by
  obtain ⟨rows, hrows, hg⟩ := bind_eq_ok_iff.1 h
  rw [← Chunk.properties_expand hmembers hrows, ← Graph.ofTable_ofRecords]
  exact (Except.ok.inj hg).symm

end RoleMining
