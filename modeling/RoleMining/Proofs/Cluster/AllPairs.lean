import RoleMining.Proofs.Cluster.Joining
import RoleMining.Proofs.Cluster.Success

/-!
# The graph of all similar pairs

The graph that is read off a table is the one that compares every two records, and a table of chunks
names the chunks by their positions. There is such a table unless a chunk's weight has wrapped
around.
-/
namespace RoleMining

namespace IdSet

theorem card_toFinset (s : IdSet) : s.toFinset.card = s.size :=
  List.toFinset_card_of_nodup s.nodup_toList

theorem size_union (s t : IdSet) : ((s.union t).size : ℤ) = s.size + t.size - (s.inter t).size := by
  have hunion : (s.union t).toFinset = s.toFinset ∪ t.toFinset := by
    ext x
    simp
  have hinter : (s.inter t).toFinset = s.toFinset ∩ t.toFinset := by
    ext x
    simp
  have hcard := Finset.card_union_add_card_inter s.toFinset t.toFinset
  rw [← hunion, ← hinter, card_toFinset, card_toFinset, card_toFinset, card_toFinset] at hcard
  omega

end IdSet

theorem Number.zero_below_of_one_atMost {n : Number} (h : (1 : Number).atMost n = true) :
    (Number.int 0).below n = true := by
  rcases Bool.or_eq_true _ _ ▸ h with hbelow | hsame
  · exact below_of_le (by decide) hbelow
  · cases n with
    | int m =>
      obtain rfl : 1 = m := by simpa [same] using hsame
      decide
    | float x =>
      cases x with
      | nan => cases hsame
      | infinite negative => cases hsame
      | finite negative significand exponent normal =>
        simp only [same, Bool.and_eq_true, beq_iff_eq] at hsame
        simp [below, hsame.2]

namespace Graph

variable {minSimilarity minShared : Number} {sets : List IdSet} {s t : IdSet}

/-- How many of the properties that either of two sets has are in both. -/
def quotient (s t : IdSet) : Binary64 := Arithmetic.ratio (s.inter t).size (s.union t).size

theorem jaccard_eq_quotient (h : (s.inter t).size ≠ 0) : jaccard s t = quotient s t := by
  have hunion := IdSet.size_union s t
  have hfirst := s.size_inter_le_left t
  have hsecond := s.size_inter_le_right t
  unfold jaccard quotient
  dsimp only
  rw [← hunion, if_pos (by omega)]

/-- A graph that names every two similar sets once. -/
structure LinksAllPairs (minSimilarity minShared : Number) (sets : List IdSet) (g : Graph) :
    Prop where
  nodes : g.nodes = sets.length
  /-- Links are sorted by the two positions, and no two positions have two links. -/
  sorted : g.edges.Pairwise fun a b =>
    a.first < b.first ∨ (a.first = b.first ∧ a.second < b.second)
  mem_edges : ∀ e, e ∈ g.edges ↔ ∃ s t, sets[e.first]? = some s ∧ sets[e.second]? = some t ∧
    e.first < e.second ∧ (Number.int (s.inter t).size).below minShared = false ∧
    minSimilarity.atMost (.float (quotient s t)) = true ∧ e.similarity = quotient s t
  /-- A set without properties has no link. -/
  nonempty : ∀ e ∈ g.edges, ∀ s, sets[e.first]? = some s ∨ sets[e.second]? = some s → s.size ≠ 0

variable (hshared : (1 : Number).atMost minShared = true)
include hshared

/-- From one shared property on, sets are similar when they share enough and their quotient is large
enough. -/
theorem similar_iff : Similar minSimilarity minShared s t ↔
    (Number.int (s.inter t).size).below minShared = false ∧
      minSimilarity.atMost (.float (quotient s t)) = true := by
  constructor
  · intro h
    have hclose := h.close
    rw [jaccard_eq_quotient h.nonempty] at hclose
    exact ⟨h.enough, hclose⟩
  · intro h
    obtain ⟨henough, hclose⟩ := h
    have hnonempty : (s.inter t).size ≠ 0 := by
      intro hnone
      rw [hnone] at henough
      cases henough.symm.trans (Number.zero_below_of_one_atMost hshared)
    rw [← jaccard_eq_quotient hnonempty] at hclose
    exact ⟨hnonempty, henough, hclose⟩

theorem linksAllPairs_ofSets (minSimilarity : Number) (sets : List IdSet) :
    LinksAllPairs minSimilarity minShared sets (ofSets minSimilarity minShared sets) := by
  have hmem (e : Edge) : e ∈ (ofSets minSimilarity minShared sets).edges ↔
      ∃ s t, sets[e.first]? = some s ∧ sets[e.second]? = some t ∧ e.first < e.second ∧
        Similar minSimilarity minShared s t ∧ e.similarity = jaccard s t := by
    rw [ofSets, mem_links_iff]
    constructor
    · intro h
      obtain ⟨a, b, s, t, hs, ht, hab, hsimilar, rfl⟩ := h
      exact ⟨s, t, by simpa using hs, by simpa using ht, by simpa using hab, hsimilar, rfl⟩
    · intro h
      obtain ⟨s, t, hs, ht, hab, hsimilar, hquotient⟩ := h
      refine ⟨e.first, e.second, s, t, hs, ht, hab, hsimilar, ?_⟩
      rw [zero_add, zero_add, ← hquotient]
  refine ⟨rfl, pairwise_links .., fun e => ?_, fun e he s hs => ?_⟩
  · rw [hmem]
    refine exists_congr fun s => exists_congr fun t => ?_
    rw [similar_iff hshared]
    refine and_congr_right fun _ => and_congr_right fun _ => and_congr_right fun _ => ?_
    rw [and_assoc]
    refine and_congr_right fun henough => and_congr_right fun hclose => ?_
    rw [jaccard_eq_quotient ((similar_iff hshared).2 ⟨henough, hclose⟩).nonempty]
  · obtain ⟨s', t', hs', ht', -, hsimilar, -⟩ := (hmem e).1 he
    have hnonempty := hsimilar.nonempty
    have hfirst := s'.size_inter_le_left t'
    have hsecond := s'.size_inter_le_right t'
    rcases hs with hs | hs
    · obtain rfl := Option.some_inj.1 (hs.symm.trans hs')
      omega
    · obtain rfl := Option.some_inj.1 (hs.symm.trans ht')
      omega

/-- The graph that is read off a table of records is the one that compares every two of them: every
pair of positions that share enough properties, as large a part of all of theirs as is asked for,
is there once with that part, sorted by position, whatever the order in which the product of the
table lists its entries. Chunks of a population have a table exactly when no weight of a chunk has
wrapped around below one. A row of the table is that of the chunk at its position, so the links are
those of the chunks. -/
theorem sparse_graph_links_all_pairs (minSimilarity : Number) :
    (∀ records : List Record,
      LinksAllPairs minSimilarity minShared (records.map (·.properties))
        (ofTable minSimilarity minShared (.ofRecords records)) ∧
      ∀ entries, entries.Perm (AssignmentTable.ofRecords records).overlaps →
        ofOverlaps minSimilarity minShared (AssignmentTable.ofRecords records).sums entries =
          ofTable minSimilarity minShared (.ofRecords records)) ∧
    ∀ (kind : Chunk.Kind) (propertyWeights : Ledger String ℤ) (records : List Record)
      (chunks : List Chunk), chunks = Chunk.aggregate kind propertyWeights records →
      ((∃ rows, Chunk.expand chunks = .ok rows) ↔ ∀ c ∈ chunks, 1 ≤ c.weight) ∧
      ((records.map (·.oid)).Nodup → (records.map (·.weight)).sum < 2 ^ 63 →
        ∃ rows, Chunk.expand chunks = .ok rows) ∧
      ∀ rows, Chunk.expand chunks = .ok rows →
        (AssignmentTable.ofRecords rows).oids = chunks.map (·.members.headD "") ∧
        (AssignmentTable.ofRecords rows).rows = (chunks.map fun c =>
          (AssignmentTable.ofRecords rows).properties.map fun x => decide (x ∈ c.propertySet)) ∧
        LinksAllPairs minSimilarity minShared (chunks.map (·.propertySet))
          (ofTable minSimilarity minShared (.ofRecords rows)) := by
  have hgraph (records : List Record) :
      LinksAllPairs minSimilarity minShared (records.map (·.properties))
        (ofTable minSimilarity minShared (.ofRecords records)) := by
    rw [ofTable_ofRecords]
    exact linksAllPairs_ofSets hshared minSimilarity _
  refine ⟨fun records => ⟨hgraph records, fun entries hentries => ?_⟩,
    fun kind propertyWeights records chunks hchunks => ?_⟩
  · rw [ofOverlaps_eq_ofSets hentries, ofTable_ofRecords]
  · subst hchunks
    have hmembers : ∀ c ∈ Chunk.aggregate kind propertyWeights records, c.members ≠ [] :=
      fun _ => Chunk.members_ne_nil
    have hiff := Chunk.exists_expand_iff hmembers
    refine ⟨hiff, fun hoids hfits => hiff.2 fun c hc => ?_, fun rows hrows => ?_⟩
    · exact Chunk.one_le_weight_of_mem_aggregate hoids hfits hc
    · have hsets := Chunk.properties_expand hmembers hrows
      have hoids : rows.map (·.oid) =
          (Chunk.aggregate kind propertyWeights records).map (·.members.headD "") := by
        rw [Chunk.expand_eq hmembers] at hrows
        exact map_eq_of_mapM_eq_ok (fun c r hr => (Record.make_eq_ok_iff.1 hr).1) hrows
      have htable : (AssignmentTable.ofRecords rows).rows = (rows.map (·.properties)).map fun s =>
          (AssignmentTable.ofRecords rows).properties.map fun x => decide (x ∈ s) := by
        rw [List.map_map]
        rfl
      rw [hsets, List.map_map] at htable
      exact ⟨hoids, htable, hsets ▸ hgraph rows⟩

omit hshared

theorem two_users_are_linked : ∃ rows, (1 : Number).atMost 2 = true ∧
    (Pattern.twoUsers.map (·.oid)).Nodup ∧ (Pattern.twoUsers.map (·.weight)).sum < 2 ^ 63 ∧
    (⟨0, 1, 1⟩ : Edge) ∈ (ofTable 0.6 2 (.ofRecords Pattern.twoUsers)).edges ∧
    ofOverlaps 0.6 2 (AssignmentTable.ofRecords Pattern.twoUsers).sums
        (AssignmentTable.ofRecords Pattern.twoUsers).overlaps =
      ofTable 0.6 2 (.ofRecords Pattern.twoUsers) ∧
    Chunk.expand (Chunk.ofUsers Pattern.twoUsers) = .ok rows ∧
    (AssignmentTable.ofRecords rows).oids = ["ann"] := by
  have hshared : (1 : Number).atMost 2 = true := by decide
  have hoids : (Pattern.twoUsers.map (·.oid)).Nodup := by decide
  have hfits : (Pattern.twoUsers.map (·.weight)).sum < 2 ^ 63 := by decide
  obtain ⟨hgraphs, hchunks⟩ := sparse_graph_links_all_pairs hshared 0.6
  obtain ⟨hgraph, horder⟩ := hgraphs Pattern.twoUsers
  obtain ⟨-, hreturns, htable⟩ := hchunks .users .empty Pattern.twoUsers _ rfl
  obtain ⟨rows, hrows⟩ := hreturns hoids hfits
  obtain ⟨hnames, -⟩ := htable rows hrows
  have hlinked : (⟨0, 1, 1⟩ : Edge) ∈ (ofTable 0.6 2 (.ofRecords Pattern.twoUsers)).edges :=
    (hgraph.mem_edges _).2 ⟨.ofList ["dev", "ops"], .ofList ["dev", "ops"], rfl, rfl, by decide,
      by decide +kernel, by decide +kernel, by decide +kernel⟩
  exact ⟨rows, hshared, hoids, hfits, hlinked, horder _ (.refl _), hrows,
    hnames.trans (by decide +kernel)⟩

/-- Chunks of two heavy users with the same roles have no table: the sum of their weights wraps
around. -/
theorem heavy_pair_has_no_table : (Clustering.heavyPair.map (·.oid)).Nodup ∧
    (Chunk.aggregate .users .empty Clustering.heavyPair).map (·.weight) = [-2 ^ 63] ∧
    (Chunk.expand (Chunk.aggregate .users .empty Clustering.heavyPair)).toOption.isNone = true := by
  refine ⟨by decide, by decide +kernel, by decide +kernel⟩

end Graph
end RoleMining
