import Mathlib.Data.Prod.Lex
import RoleMining.Analysis.Basic
import RoleMining.Proofs.Aggregation
import RoleMining.Proofs.Analysis.Mining

/-!
# Records in another order

What is made of records does not depend on their order. Sets and sums are the same in any order; a
sort by weight and key puts the chunks in their one order, since every property set has one chunk;
and the identities are found with the same records and weights, as long as they are distinct.
-/
namespace RoleMining

/-- A sort by an order that tells the items apart depends on the items only. -/
theorem mergeSort_eq_of_perm {α : Type} {le : α → α → Bool} {xs ys : List α}
    (htrans : ∀ a b c, le a b = true → le b c = true → le a c = true)
    (htotal : ∀ a b, (le a b || le b a) = true)
    (hanti : ∀ a ∈ xs, ∀ b ∈ xs, le a b = true → le b a = true → a = b) (h : xs.Perm ys) :
    xs.mergeSort le = ys.mergeSort le := by
  refine List.Perm.eq_of_pairwise (fun a b ha hb hab hba => ?_)
    (List.pairwise_mergeSort htrans htotal xs) (List.pairwise_mergeSort htrans htotal ys)
    (((List.mergeSort_perm xs le).trans h).trans (List.mergeSort_perm ys le).symm)
  exact hanti a (List.mem_mergeSort.1 ha) b (h.mem_iff.2 (List.mem_mergeSort.1 hb)) hab hba

section Axes

variable {records records' : List Record} (h : records.Perm records')
include h

theorem Record.holds_iff_of_perm {oid property : String} :
    Holds records oid property ↔ Holds records' oid property := by
  simp only [Holds, h.mem_iff]

theorem heldProperties_eq_of_perm : heldProperties records = heldProperties records' :=
  IdSet.ext_mem fun x => by simp only [mem_heldProperties, h.mem_iff]

theorem holders_eq_of_perm (property : String) :
    holders records property = holders records' property :=
  IdSet.ext_mem fun oid => by rw [mem_holders_iff, mem_holders_iff, Record.holds_iff_of_perm h]

theorem invert_eq_of_perm : invert records = invert records' := by
  unfold invert
  rw [heldProperties_eq_of_perm h]
  exact List.map_congr_left fun property _ => by rw [holders_eq_of_perm h]

theorem Analysis.analysed_perm (mode : Mode) :
    (analysed mode records).Perm (analysed mode records') := by
  cases mode with
  | user => exact h
  | role => exact .of_eq (invert_eq_of_perm h)

variable (hoids : (records.map (·.oid)).Nodup)
include hoids

theorem find?_weightMap_of_perm : (weightMap records).find? = (weightMap records').find? :=
  Ledger.find?_ofList_of_perm (by rwa [List.map_map]) (h.map _)

theorem Record.find?_directory_of_perm :
    (directory records).find? = (directory records').find? :=
  Ledger.find?_ofList_of_perm (by rwa [List.map_map]) (h.map _)

end Axes

namespace Chunk

theorem Width.holding_eq_of_perm {weights weights' : List ℤ} (h : weights.Perm weights') :
    holding weights = holding weights' := by
  unfold holding
  rw [h.all_eq, h.all_eq]

theorem Width.sum_eq_of_perm (width : Width) {weights weights' : List ℤ}
    (h : weights.Perm weights') : width.sum weights = width.sum weights' := by
  unfold sum
  rw [total_eq_sum, total_eq_sum, h.sum_eq]

variable {a b : Chunk}

/-- Heavier chunks rank first; of equal weights the smaller key does. -/
def rank (c : Chunk) : ℤᵒᵈ ×ₗ List String := toLex (OrderDual.toDual c.weight, c.properties)

theorem ordered_iff : ordered a b = true ↔ a.rank ≤ b.rank := by
  simp [ordered, rank, Prod.Lex.toLex_le_toLex, keyAtMost_iff]

theorem ordered_trans (a b c : Chunk) (hab : ordered a b = true) (hbc : ordered b c = true) :
    ordered a c = true := by
  rw [ordered_iff] at *
  exact hab.trans hbc

theorem ordered_total (a b : Chunk) : (ordered a b || ordered b a) = true := by
  rw [Bool.or_eq_true, ordered_iff, ordered_iff]
  exact le_total _ _

theorem properties_eq_of_rank_eq (h : a.rank = b.rank) : a.properties = b.properties :=
  congrArg (fun rank => (ofLex rank).2) h

section Perm

variable {records records' : List Record} (h : records.Perm records')
include h

theorem ofGroup_eq_of_perm (kind : Kind) (width : Width) (propertyWeights : Ledger String ℤ) :
    ofGroup kind width propertyWeights records = ofGroup kind width propertyWeights records' := by
  funext key
  have hgroup := h.filter fun r => decide (r.properties = key)
  have hmembers : IdSet.ofList ((records.filter (·.properties = key)).map (·.oid)) =
      IdSet.ofList ((records'.filter (·.properties = key)).map (·.oid)) :=
    IdSet.ext_mem fun x => by rw [IdSet.mem_ofList, IdSet.mem_ofList, (hgroup.map _).mem_iff]
  have hweight (oid : String) :
      width.sum (((records.filter (·.properties = key)).filter (·.oid = oid)).map (·.weight)) =
      width.sum (((records'.filter (·.properties = key)).filter (·.oid = oid)).map (·.weight)) :=
    width.sum_eq_of_perm ((hgroup.filter _).map _)
  unfold ofGroup
  simp only [hmembers, hweight]

/-- The chunks of records are the same in the same order. -/
theorem aggregate_eq_of_perm (kind : Kind) (propertyWeights : Ledger String ℤ) :
    aggregate kind propertyWeights records = aggregate kind propertyWeights records' := by
  have hkeys : (records.map (·.properties)).eraseDups.Perm
      (records'.map (·.properties)).eraseDups := by
    refine (List.perm_ext_iff_of_nodup (nodup_eraseDups _) (nodup_eraseDups _)).2 fun key => ?_
    rw [List.mem_eraseDups, List.mem_eraseDups, (h.map _).mem_iff]
  unfold aggregate
  dsimp only
  rw [Width.holding_eq_of_perm (h.map _), ofGroup_eq_of_perm h]
  refine mergeSort_eq_of_perm ordered_trans ordered_total (fun a ha b hb hab hba => ?_)
    (hkeys.map _)
  obtain ⟨key, -, rfl⟩ := List.mem_map.1 ha
  obtain ⟨key', -, rfl⟩ := List.mem_map.1 hb
  rw [ordered_iff] at hab hba
  have hsame : key.toList = key'.toList := properties_eq_of_rank_eq (le_antisymm hab hba)
  rw [IdSet.toList_inj.1 hsame]

end Perm

end Chunk

theorem Clustering.chunksFor_eq_of_perm {records records' : List Record}
    (h : records.Perm records') (mode : Mode) :
    chunksFor mode records = chunksFor mode records' := by
  cases mode with
  | user => exact Chunk.aggregate_eq_of_perm h .users .empty
  | role => exact congrArg (Chunk.aggregate .roles .empty) (invert_eq_of_perm h)

end RoleMining
