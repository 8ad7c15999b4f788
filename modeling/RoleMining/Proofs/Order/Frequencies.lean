import RoleMining.Frequency
import RoleMining.Proofs.Binary64.Sums
import RoleMining.Proofs.Order.Records
import RoleMining.Proofs.Weight

/-!
# Frequencies of a population

Weights are added as doubles, in pairs of sums for the population and from left to right for the
holders of a property. As long as they weigh less together than doubles count exactly, a frequency
is the quotient of two exact sums: what the holders weigh, and what everyone does. Such frequencies
always exist and do not depend on the order of the records. They also exist where every record
stands for one member.
-/
namespace RoleMining

variable {records records' : List Record} {r : Record}

open Arithmetic

/-- Weights of records are added without rounding. -/
theorem pairwiseSum_weights (h : weightOf records < 2 ^ 53) :
    pairwiseSum (records.map fun r => Binary64.ofInt r.weight) =
      Binary64.ofInt (weightOf records) := by
  have hsum := Binary64.pairwiseSum_map_ofInt (fun _ => weight_nonneg_of_mem) h
  rwa [List.map_map] at hsum

theorem sum_weights (h : weightOf records < 2 ^ 53) :
    Arithmetic.sum (records.map fun r => Binary64.ofInt r.weight) =
      Binary64.ofInt (weightOf records) := by
  have hsum := Binary64.sum_map_ofInt (fun _ => weight_nonneg_of_mem) h
  rwa [List.map_map] at hsum

theorem doubleWeight_eq_ok (h : (Binary64.ofInt r.weight).isFinite = true) :
    doubleWeight r = .ok (Binary64.ofInt r.weight) := by
  unfold doubleWeight Binary64.ofInt?
  rw [if_pos h]

theorem doubleWeight_eq (h : weightOf records < 2 ^ 53) (hr : r ∈ records) :
    doubleWeight r = .ok (Binary64.ofInt r.weight) :=
  doubleWeight_eq_ok (Binary64.exactly_ofInt (le_trans (by decide) r.positive)
    ((weight_le_weightOf hr).trans_lt h)).isFinite

namespace Frequencies

/-- The records that hold a property. -/
def holding (records : List Record) (property : String) : List Record :=
  records.filter fun r => property ∈ r.properties

/-- The weighted share of the records that holds a property. -/
def shareOf (records : List Record) (property : String) : Number :=
  .float (Binary64.ofInt (weightOf (holding records property)) /
    Binary64.ofInt (weightOf records))

/-- Records beside their weights as doubles. -/
theorem mapM_doubleWeight_eq_ok {double : Record → Binary64}
    (hdouble : ∀ r ∈ records, doubleWeight r = .ok (double r)) :
    (records.mapM fun r => return (r, ← doubleWeight r)) =
      .ok (records.map fun r => (r, double r)) :=
  mapM_eq_ok_map fun r hr => by rw [hdouble r hr]; rfl

theorem map_snd_pairs (double : Record → Binary64) :
    (records.map fun r => (r, double r)).map (·.2) = records.map double := by
  rw [List.map_map]
  rfl

/-- With the double of each weight a frequency is the quotient of two sums of doubles. -/
theorem ofRecords_eq_of_doubleWeight {double : Record → Binary64}
    (hdouble : ∀ r ∈ records, doubleWeight r = .ok (double r))
    (hfinite : (pairwiseSum (records.map double)).isFinite = true) : ofRecords records =
    .ok (.ofList ((heldProperties records).toList.map fun property =>
      (property, .float (Arithmetic.sum ((holding records property).map double) /
        pairwiseSum (records.map double))))) := by
  cases hempty : records.isEmpty with
  | true =>
    obtain rfl := List.isEmpty_iff.1 hempty
    rfl
  | false =>
    have hholders (property : String) : ((records.map fun r => (r, double r)).filter
        fun rw => property ∈ rw.1.properties).map (·.2) =
        (holding records property).map double := by
      rw [List.filter_map, List.map_map]
      rfl
    unfold ofRecords
    rw [hempty, mapM_doubleWeight_eq_ok hdouble]
    simp only [bind, Except.bind, map_snd_pairs, hholders, hfinite, Bool.false_eq_true, if_false,
      Bool.not_true]
    rfl

theorem ofRecords_eq (h : weightOf records < 2 ^ 53) : ofRecords records =
    .ok (.ofList ((heldProperties records).toList.map fun property =>
      (property, shareOf records property))) := by
  have hfinite := (Binary64.exactly_ofInt (weightOf_nonneg records) h).isFinite
  rw [← pairwiseSum_weights h] at hfinite
  have hholders (property : String) :
      Arithmetic.sum ((holding records property).map fun r => Binary64.ofInt r.weight) =
        Binary64.ofInt (weightOf (holding records property)) :=
    sum_weights ((weightOf_le_of_sublist List.filter_sublist).trans_lt h)
  rw [ofRecords_eq_of_doubleWeight (fun _ hr => doubleWeight_eq h hr) hfinite]
  simp only [hholders, pairwiseSum_weights h]
  rfl

/-- Records of one member each have frequencies, as long as a machine word counts them. -/
theorem exists_ofRecords_of_ones (h : ∀ r ∈ records, r.weight = 1)
    (hlength : records.length < 2 ^ 63) : ∃ frequencies, ofRecords records = .ok frequencies := by
  have hdouble : ∀ r ∈ records, doubleWeight r = .ok (Binary64.ofInt 1) := by
    intro r hr
    unfold doubleWeight
    rw [h r hr]
    rfl
  have hfinite := (Binary64.isWithin_pairwiseSum_ones (n := records.length) (j := 57) (by omega)
    (by norm_num)).isFinite
  rw [← List.map_const'] at hfinite
  exact ⟨_, ofRecords_eq_of_doubleWeight hdouble hfinite⟩

theorem ofRecords_eq_of_perm (h : records.Perm records') (hweight : weightOf records < 2 ^ 53) :
    ofRecords records = ofRecords records' := by
  have hshare (property : String) : shareOf records property = shareOf records' property := by
    have hholding : (holding records property).Perm (holding records' property) := h.filter _
    unfold shareOf
    rw [weightOf_eq_of_perm h, weightOf_eq_of_perm hholding]
  rw [ofRecords_eq hweight, ofRecords_eq ((weightOf_eq_of_perm h).symm.trans_lt hweight),
    heldProperties_eq_of_perm h]
  simp only [hshare]

end Frequencies
end RoleMining
