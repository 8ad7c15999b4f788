import RoleMining.Cluster.Clustering
import RoleMining.Proofs.Aggregation
import RoleMining.Proofs.Results

/-!
# The links of the similarity graph

The list of links names every two similar sets once, the earlier position first. So a position has a
link if and only if its set is similar to that of another position. A table of some chunks has a
row for each chunk that has members; when all of them have, the row at a position is that of the
chunk there.
-/
namespace RoleMining

namespace IdSet

variable (s t : IdSet)

theorem inter_comm : s.inter t = t.inter s := ext_mem fun x => by simp [and_comm]

theorem size_inter_le_left : (s.inter t).size ≤ s.size := List.length_filter_le ..

theorem size_inter_le_right : (s.inter t).size ≤ t.size := by
  rw [inter_comm]
  exact size_inter_le_left t s

end IdSet

namespace Graph

variable {minSimilarity minShared : Number} {s t : IdSet} {sets : List IdSet} {e : Edge}

theorem jaccard_comm (s t : IdSet) : jaccard s t = jaccard t s := by
  unfold jaccard
  rw [IdSet.inter_comm t s, add_comm (s.size : ℤ)]

/-- Two sets share enough, and what they share is a large enough part of all. -/
structure Similar (minSimilarity minShared : Number) (s t : IdSet) : Prop where
  nonempty : (s.inter t).size ≠ 0
  enough : (Number.int (s.inter t).size).below minShared = false
  close : minSimilarity.atMost (.float (jaccard s t)) = true

theorem Similar.symm (h : Similar minSimilarity minShared s t) :
    Similar minSimilarity minShared t s := by
  obtain ⟨hnonempty, henough, hclose⟩ := h
  rw [IdSet.inter_comm] at hnonempty henough
  rw [jaccard_comm] at hclose
  exact ⟨hnonempty, henough, hclose⟩

theorem link?_eq_some_iff {i j : ℕ} : link? minSimilarity minShared i j s t = some e ↔
    Similar minSimilarity minShared s t ∧ e = ⟨i, j, jaccard s t⟩ := by
  unfold link?
  dsimp only
  split_ifs with hempty hfew hclose
  · exact iff_of_false (by simp) fun h => h.1.nonempty hempty
  · exact iff_of_false (by simp) fun h => by simp [h.1.enough] at hfew
  · rw [Option.some_inj, eq_comm,
      and_iff_right ⟨hempty, Bool.eq_false_iff.2 hfew, hclose⟩]
  · exact iff_of_false (by simp) fun h => hclose h.1.close

theorem mem_linksFrom_iff {i : ℕ} {later : List IdSet} :
    e ∈ linksFrom minSimilarity minShared i s later ↔
      ∃ b t, later[b]? = some t ∧ Similar minSimilarity minShared s t ∧
        e = ⟨i, i + 1 + b, jaccard s t⟩ := by
  simp only [linksFrom, List.mem_filterMap, Prod.exists, List.mem_zipIdx_iff_getElem?,
    link?_eq_some_iff]
  exact exists_comm

/-- The links are those of every two similar sets, by their positions. -/
theorem mem_links_iff {i : ℕ} : e ∈ links minSimilarity minShared i sets ↔
    ∃ a b s t, sets[a]? = some s ∧ sets[b]? = some t ∧ a < b ∧
      Similar minSimilarity minShared s t ∧ e = ⟨i + a, i + b, jaccard s t⟩ := by
  induction sets generalizing i with
  | nil => simp [links]
  | cons first later ih =>
    rw [links, List.mem_append, mem_linksFrom_iff, ih]
    constructor
    · intro h
      rcases h with ⟨b, t, ht, hsimilar, rfl⟩ | ⟨a, b, s, t, hs, ht, hab, hsimilar, rfl⟩
      · exact ⟨0, b + 1, first, t, rfl, ht, by omega, hsimilar, by simp; omega⟩
      · exact ⟨a + 1, b + 1, s, t, hs, ht, by omega, hsimilar, by simp; omega⟩
    · intro h
      obtain ⟨a, b, s, t, hs, ht, hab, hsimilar, rfl⟩ := h
      obtain ⟨b, rfl⟩ : ∃ b', b = b' + 1 := ⟨b - 1, by omega⟩
      cases a with
      | zero =>
        obtain rfl := Option.some_inj.1 hs
        exact .inl ⟨b, t, ht, hsimilar, by simp; omega⟩
      | succ a => exact .inr ⟨a, b, s, t, hs, ht, by omega, hsimilar, by simp; omega⟩

/-- A position has a link when its set is similar to one at another position. -/
theorem hasEdgeAt_ofSets_iff {pos : ℕ} (hpos : sets[pos]? = some s) :
    (ofSets minSimilarity minShared sets).hasEdgeAt pos = true ↔
      ∃ other t, sets[other]? = some t ∧ other ≠ pos ∧ Similar minSimilarity minShared s t := by
  simp only [hasEdgeAt, ofSets, List.any_eq_true, mem_links_iff, zero_add, Bool.or_eq_true,
    beq_iff_eq]
  constructor
  · intro h
    obtain ⟨e, ⟨a, b, s', t', hs', ht', hab, hsimilar, rfl⟩, rfl | rfl⟩ := h
    · obtain rfl := Option.some_inj.1 (hpos.symm.trans hs')
      exact ⟨b, t', ht', by simp; omega, hsimilar⟩
    · obtain rfl := Option.some_inj.1 (hpos.symm.trans ht')
      exact ⟨a, s', hs', by simp; omega, hsimilar.symm⟩
  · intro h
    obtain ⟨other, t, ht, hne, hsimilar⟩ := h
    rcases lt_or_gt_of_ne hne with hlt | hgt
    · exact ⟨_, ⟨other, pos, t, s, ht, hpos, hlt, hsimilar.symm, rfl⟩, .inr rfl⟩
    · exact ⟨_, ⟨pos, other, s, t, hpos, ht, hgt, hsimilar, rfl⟩, .inl rfl⟩

end Graph

/-! ### The table of the chunks -/

namespace Chunk

variable {chunks : List Chunk} {rows : List Record}

/-- Chunks that have members are all expanded, each named by the first of them. -/
theorem expand_eq (hmembers : ∀ c ∈ chunks, c.members ≠ []) : expand chunks =
    chunks.mapM fun c => Record.make (c.members.headD "") c.propertySet c.weight := by
  have hnamed : (chunks.filterMap fun c => c.members.head?.map fun first => (first, c)) =
      chunks.map fun c => (c.members.headD "", c) := by
    rw [← List.filterMap_eq_map]
    refine List.filterMap_congr fun c hc => ?_
    obtain ⟨first, rest, hfirst⟩ := List.exists_cons_of_ne_nil (hmembers c hc)
    simp [hfirst]
  rw [expand, hnamed, List.mapM_map]
  rfl

theorem properties_expand (hmembers : ∀ c ∈ chunks, c.members ≠ [])
    (h : expand chunks = .ok rows) : rows.map (·.properties) = chunks.map (·.propertySet) := by
  rw [expand_eq hmembers] at h
  exact map_eq_of_mapM_eq_ok (fun c r hr => (Record.make_eq_ok_iff.1 hr).2.1) h

/-- Chunks are expanded unless one weighs less than a member does. -/
theorem exists_expand_iff (hmembers : ∀ c ∈ chunks, c.members ≠ []) :
    (∃ rows, expand chunks = .ok rows) ↔ ∀ c ∈ chunks, 1 ≤ c.weight := by
  rw [expand_eq hmembers]
  constructor
  · intro hexpand c hc
    obtain ⟨rows, hrows⟩ := hexpand
    obtain ⟨r, -, hr⟩ := exists_of_mem_of_mapM_eq_ok hrows hc
    rw [← (Record.make_eq_ok_iff.1 hr).2.2]
    exact r.positive
  · intro hweights
    exact exists_mapM_eq_ok fun c hc => ⟨_, dif_pos (hweights c hc)⟩

theorem members_ne_nil {kind : Kind} {propertyWeights : Ledger String ℤ} {records : List Record}
    {c : Chunk} (hc : c ∈ aggregate kind propertyWeights records) : c.members ≠ [] := by
  obtain ⟨x, hx⟩ := members_ne_nil_of_mem_aggregate hc
  exact List.ne_nil_of_mem hx

end Chunk

end RoleMining
