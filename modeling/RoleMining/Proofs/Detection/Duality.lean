import RoleMining.Proofs.Chunk.Axes
import RoleMining.Proofs.Detection.Copies
import RoleMining.Proofs.Detection.Narrowing
import RoleMining.Proofs.Number
import RoleMining.Proofs.Order.Records

/-!
# The two modes are dual

Users searched for what their roles have in common are roles of the inverted records: with weights
of one and distinct identities these invert back to the records that hold something. So both modes
search the same chunks, except that only one of them keeps the users without a role. Such users have
an empty property set, and an empty support never counts as one.
-/
namespace RoleMining

variable {records : List Record} {r : Record} {x : String} {S B : IdSet}

/-! ### Weights of one -/

theorem weightIn_weightMap_of_ones (hones : ∀ r ∈ records, r.weight = 1) (x : String) :
    weightIn (weightMap records).find? x = 1 :=
  weightIn_weightMap_of_forall (p := (· = 1)) rfl hones x

/-- Inverting twice gives back the records that hold something. -/
theorem invert_invert (hoids : (records.map (·.oid)).Nodup) (hones : ∀ r ∈ records, r.weight = 1) :
    invert (invert records) =
      (records.filter (·.properties ≠ .empty)).mergeSort fun a b => a.oid ≤ b.oid := by
  rw [invert, ← map_oid_mergeSort hoids, List.map_map]
  refine (List.map_congr_left (g := id) fun r hr => ?_).trans (List.map_id _)
  have hmem : r ∈ records := (List.mem_filter.1 (List.mem_mergeSort.1 hr)).1
  simp only [Function.comp_apply, holders_invert hoids hmem, Record.single, ← hones r hmem, id]

/-! ### Chunks of the records that hold something -/

namespace Chunk

variable {kind kind' : Kind} {propertyWeights propertyWeights' : Ledger String ℤ}

theorem sidesOf_filter {key : IdSet} (hkey : key ≠ .empty) :
    sidesOf (records.filter (·.properties ≠ .empty)) key = sidesOf records key := by
  have hgroup : groupOf (records.filter (·.properties ≠ .empty)) key = groupOf records key := by
    unfold groupOf
    rw [List.filter_filter]
    refine List.filter_congr fun r _ => ?_
    by_cases hr : r.properties = key <;> simp [hr, hkey]
  rw [sidesOf, hgroup, sidesOf]

/-- Without the records that hold nothing, only the chunk with no properties is missing. -/
theorem sides_aggregate_filter : ((aggregate kind' propertyWeights'
      (records.filter (·.properties ≠ .empty))).map sides).Perm
    (((aggregate kind propertyWeights records).map sides).filter (·.1 ≠ .empty)) := by
  have hkeys : ((records.filter (·.properties ≠ .empty)).map (·.properties)).eraseDups.Perm
      ((records.map (·.properties)).eraseDups.filter (· ≠ .empty)) := by
    refine (List.perm_ext_iff_of_nodup (nodup_eraseDups _) ((nodup_eraseDups _).filter _)).2 ?_
    intro key
    simp only [List.mem_eraseDups, List.mem_map, List.mem_filter, decide_eq_true_eq]
    constructor
    · intro hkey
      obtain ⟨r, ⟨hr, hne⟩, rfl⟩ := hkey
      exact ⟨⟨r, hr, rfl⟩, hne⟩
    · intro hkey
      obtain ⟨⟨r, hr, rfl⟩, hne⟩ := hkey
      exact ⟨r, ⟨hr, hne⟩, rfl⟩
  have hfilter : ((records.map (·.properties)).eraseDups.map (sidesOf records)).filter
      (·.1 ≠ .empty) =
        ((records.map (·.properties)).eraseDups.filter (· ≠ .empty)).map (sidesOf records) :=
    List.filter_map
  refine (sides_aggregate _ _ _).trans (.trans ?_ ((sides_aggregate _ _ _).filter _).symm)
  rw [hfilter]
  refine (hkeys.map _).trans (.of_eq (List.map_congr_left fun key hkey => ?_))
  exact sidesOf_filter (of_decide_eq_true (List.mem_filter.1 hkey).2)

/-- Users are grouped as the roles of the inverted records are. -/
theorem sides_ofRoles_invert (hoids : (records.map (·.oid)).Nodup)
    (hones : ∀ r ∈ records, r.weight = 1) : ((ofRoles (invert records)).map sides).Perm
      (((ofUsers records).map sides).filter (·.1 ≠ .empty)) := by
  unfold ofRoles
  rw [invert_invert hoids hones, aggregate_eq_of_perm (List.mergeSort_perm _ _)]
  exact sides_aggregate_filter

end Chunk

/-! ### References -/

/-- A set without elements reaches no threshold of a search. -/
theorem ne_empty_of_reaches {weight : String → ℤ} {size : Number} (hnumber : size.isNaN = false)
    (hsize : size.below 1 = false) (h : reaches weight size S = true) : S ≠ .empty := by
  rintro rfl
  have hone : (1 : WithBot (WithTop ℚ)) ≤ size.place := by
    by_contra hlt
    rw [← Bool.not_eq_true, Number.below_iff] at hsize
    exact hsize ⟨hnumber, rfl, not_le.1 hlt⟩
  have hzero : (Number.int 0).below size = true :=
    Number.below_iff.2 ⟨rfl, hnumber, lt_of_lt_of_le zero_lt_one hone⟩
  rw [reaches_iff] at h
  exact absurd (h.symm.trans hzero) (by decide)

theorem IdSet.size_le_length {xs : List String} (h : ∀ x ∈ S, x ∈ xs) : S.size ≤ xs.length :=
  (List.subperm_of_subset S.nodup_toList h).length_le

namespace Reference

variable {thresholds : Thresholds}
variable (hoids : (records.map (·.oid)).Nodup) (hones : ∀ r ∈ records, r.weight = 1)

theorem supportWeight_inverted : (ofRecords .user (invert records) thresholds).supportWeight =
    (ofRecords .role records thresholds).supportWeight :=
  funext fun x => weightIn_weightMap_of_ones (fun _ => weight_of_mem_invert) x

include hones in
theorem bodyWeight_inverted : (ofRecords .user (invert records) thresholds).bodyWeight =
    (ofRecords .role records thresholds).bodyWeight :=
  funext fun x => (weightIn_weightMap_of_ones hones x).symm

include hoids hones

theorem population_inverted : (ofRecords .user (invert records) thresholds).population =
    (ofRecords .role records thresholds).population := by
  refine IdSet.ext_mem fun x => ?_
  rw [mem_population_iff, mem_population_iff]
  have hperm := Chunk.sides_ofRoles_invert hoids hones
  constructor
  · intro hx
    obtain ⟨q, hq, hx⟩ := hx
    exact ⟨q, (List.mem_filter.1 (hperm.mem_iff.1 hq)).1, hx⟩
  · intro hx
    obtain ⟨q, hq, hx⟩ := hx
    have hne : q.1 ≠ .empty := IdSet.ne_empty_iff.2 ⟨x, hx⟩
    exact ⟨q, hperm.mem_iff.2 (List.mem_filter.2 ⟨hq, decide_eq_true hne⟩), hx⟩

/-- A chunk is in the band in both modes, for the population is the same. -/
theorem survivors_inverted : ((ofRecords .user (invert records) thresholds).survivors.map
      Chunk.sides).Perm
    (((ofRecords .role records thresholds).survivors.map Chunk.sides).filter (·.1 ≠ .empty)) := by
  have hsurvives (P : IdSet) : (ofRecords .user (invert records) thresholds).survives P =
      (ofRecords .role records thresholds).survives P := by
    unfold survives
    rw [supportWeight_inverted, population_inverted hoids hones]
    rfl
  rw [sides_survivors, sides_survivors, List.filter_comm]
  simp only [hsurvives]
  exact (Chunk.sides_ofRoles_invert hoids hones).filter _

theorem supportSets_inverted : (ofRecords .user (invert records) thresholds).supportSets.Perm
    ((ofRecords .role records thresholds).supportSets.filter (· ≠ .empty)) := by
  rw [supportSets_eq_map_sides, supportSets_eq_map_sides, List.filter_map]
  exact (survivors_inverted hoids hones).map _

theorem isMeet_inverted_iff (hS : S ≠ .empty) {n : ℕ} :
    IsMeet n (ofRecords .user (invert records) thresholds).supportSets S ↔
      IsMeet n (ofRecords .role records thresholds).supportSets S := by
  obtain ⟨x, hx⟩ := IdSet.ne_empty_iff.1 hS
  refine (isMeet_perm_iff (supportSets_inverted hoids hones)).trans (isMeet_filter_iff ?_)
  exact fun s _ hs => decide_eq_true (IdSet.ne_empty_iff.2 ⟨x, hs x hx⟩)

theorem isBody_inverted_iff (hS : S ≠ .empty) :
    (ofRecords .user (invert records) thresholds).IsBody S B ↔
      (ofRecords .role records thresholds).IsBody S B := by
  obtain ⟨y, hy⟩ := IdSet.ne_empty_iff.1 hS
  rw [isBody_iff_sides, isBody_iff_sides]
  refine forall_congr' fun x => iff_congr .rfl (exists_congr fun q => ?_)
  rw [(survivors_inverted hoids hones).mem_iff, List.mem_filter, and_assoc]
  refine and_congr_right fun _ => and_iff_right_of_imp fun h => decide_eq_true ?_
  exact IdSet.ne_empty_iff.2 ⟨y, h.1 y hy⟩

variable (hnumber : thresholds.minSupport.isNaN = false)
variable (hsize : thresholds.minSupport.below 1 = false)
include hnumber hsize

theorem supports_inverted_iff : (ofRecords .user (invert records) thresholds).Supports S B ↔
    (ofRecords .role records thresholds).Supports S B := by
  have hweight : (ofRecords .user (invert records) thresholds).supportWeight = _ :=
    supportWeight_inverted
  have hbody : (ofRecords .user (invert records) thresholds).bodyWeight = _ :=
    bodyWeight_inverted hones
  constructor
  · intro h
    obtain ⟨hheavy, n, hlow, hhigh, hmeet⟩ := h.candidate
    have hS := ne_empty_of_reaches hnumber hsize hheavy
    exact ⟨⟨hweight ▸ hheavy, n, hlow, hhigh, (isMeet_inverted_iff hoids hones hS).1 hmeet⟩,
      (isBody_inverted_iff hoids hones hS).1 h.body, hbody ▸ h.large⟩
  · intro h
    obtain ⟨hheavy, n, hlow, hhigh, hmeet⟩ := h.candidate
    have hS := ne_empty_of_reaches hnumber hsize hheavy
    exact ⟨⟨hweight ▸ hheavy, n, hlow, hhigh, (isMeet_inverted_iff hoids hones hS).2 hmeet⟩,
      (isBody_inverted_iff hoids hones hS).2 h.body, hbody ▸ h.large⟩

theorem narrows_inverted : (ofRecords .role records thresholds).Narrows
    (ofRecords .user (invert records) thresholds) fun _ _ => true where
  supports_iff := (supports_inverted_iff hoids hones hnumber hsize).trans (and_iff_left rfl).symm
  keep_of_outranks _ _ := rfl
  weighted_support _ := by rw [supportWeight_inverted]
  weighted_body _ := by rw [bodyWeight_inverted hones]

omit hnumber hsize in
/-- No score can exceed the number of pairs of a record and a property. -/
theorem score_fits_of_ones (hbound : records.length * (heldProperties records).size < 2 ^ 1023)
    (h : (ofRecords .role records thresholds).Supports S B) :
    (Binary64.ofInt? (B.weighted (ofRecords .role records thresholds).bodyWeight *
      S.weighted (ofRecords .role records thresholds).supportWeight)).isSome = true := by
  have hbody : (ofRecords .role records thresholds).bodyWeight = fun _ => 1 :=
    funext fun x => weightIn_weightMap_of_ones hones x
  have hmembers : (IdSet.ofList ((Chunk.ofUsers records).flatMap (·.members))).size ≤
      records.length := by
    have hsub : IdSet.ofList ((Chunk.ofUsers records).flatMap (·.members)) ⊆
        .ofList (records.map (·.oid)) :=
      Chunk.members_aggregate_subset fun r hr =>
        IdSet.mem_ofList.2 (List.mem_map_of_mem (f := (·.oid)) hr)
    rw [← List.length_map (·.oid)]
    exact IdSet.size_le_length fun x hx => IdSet.mem_ofList.1 (hsub x hx)
  have hpopulation : (ofRecords .role records thresholds).population.size ≤
      (heldProperties records).size :=
    IdSet.size_le_length
      (Chunk.properties_aggregate_subset fun _ => properties_subset_heldProperties)
  refine score_fits (consistent_ofRecords .role thresholds hoids) ?_ h
  rw [hbody]
  change IdSet.weighted (fun _ => 1) (IdSet.ofList ((Chunk.ofUsers records).flatMap (·.members))) *
    IdSet.weighted (fun _ => 1) (ofRecords .role records thresholds).population < 2 ^ 1023
  rw [IdSet.weighted_one, IdSet.weighted_one]
  exact_mod_cast (Nat.mul_le_mul hmembers hpopulation).trans_lt hbound

end Reference

namespace Pattern

/-- The two modes are dual. Take options that nothing is wrong with and records of distinct
identities with weights of one. Searched among the chunks of users and, with the records inverted,
among the chunks of roles, both modes return as long as the records and the properties make fewer
than 2 ^ 1023 pairs. Whenever one of them returns and is not cancelled, so does the other, and if
neither is cancelled they list the same patterns in the same order, except for the mode. -/
theorem modes_are_dual {α β : Type} {options : Detection} (hoptions : options.complaints = .ok [])
    {records : List Record} (hoids : (records.map (·.oid)).Nodup)
    (hones : ∀ r ∈ records, r.weight = 1) (run : Run α) (run' : Run β) :
    ∃ thresholds, options.check = .ok thresholds ∧
      (records.length * (heldProperties records).size < 2 ^ 1023 →
        (∃ after patterns,
          detect .role thresholds (Chunk.ofUsers records) run = .ok (after, patterns)) ∧
        ∃ after' patterns', detect .user thresholds (Chunk.ofRoles (invert records)) run' =
          .ok (after', patterns')) ∧
      (∀ after patterns,
        detect .role thresholds (Chunk.ofUsers records) run = .ok (after, patterns) →
        after.cancelled = false →
        ∃ after' patterns', detect .user thresholds (Chunk.ofRoles (invert records)) run' =
            .ok (after', patterns') ∧
          (after'.cancelled = false → patterns' = patterns.map fun p => { p with mode := .user })) ∧
      ∀ after' patterns', detect .user thresholds (Chunk.ofRoles (invert records)) run' =
          .ok (after', patterns') →
        after'.cancelled = false →
        ∃ after patterns,
          detect .role thresholds (Chunk.ofUsers records) run = .ok (after, patterns) := by
  obtain ⟨thresholds, hcheck, -, hnumber, hsize⟩ := Detection.exists_check hoptions
  have hnarrows := Reference.narrows_inverted hoids hones hnumber hsize
  have hr := Reference.consistent_ofRecords .role thresholds hoids
  have hr' := Reference.consistent_ofRecords .user thresholds (nodup_oid_invert records)
  refine ⟨thresholds, hcheck, fun hbound => ⟨?_, ?_⟩, fun after patterns h hafter => ?_,
    fun after' patterns' h' hafter' => ?_⟩
  · exact Reference.exists_detect hr .role run fun S B hS =>
      Reference.score_fits_of_ones hoids hones hbound hS
  · refine Reference.exists_detect hr' .user run' fun S B hS' => ?_
    have hS := (hnarrows.supports_iff.1 hS').1
    rw [hnarrows.weighted_body hS, hnarrows.weighted_support hS]
    exact Reference.score_fits_of_ones hoids hones hbound hS
  · obtain ⟨after', patterns', h'⟩ := hnarrows.exists_detect hr hr' h hafter .user run'
    refine ⟨after', patterns', h', fun hafter' => ?_⟩
    have hmap := hnarrows.detect_eq_filter hr hr' h hafter h' hafter'
    rwa [List.filter_true] at hmap
  · exact hnarrows.symm.exists_detect hr' hr h' hafter' .role run

/-- Two users have the same two roles, and a third one has none. -/
def withIdler : List Record :=
  [.single "ann" (.ofList ["dev", "ops"]), .single "bob" (.ofList ["dev", "ops"]),
    .single "cid" .empty]

theorem idler_changes_neither_mode : ({} : Detection).complaints = .ok [] ∧
    (withIdler.map (·.oid)).Nodup ∧ (∀ r ∈ withIdler, r.weight = 1) ∧
    withIdler.length * (heldProperties withIdler).size < 2 ^ 1023 ∧
    ∃ (after after' : Run Unit) (patterns patterns' : List Pattern),
      detect .role Detection.standard (Chunk.ofUsers withIdler) Run.unwatched =
        .ok (after, patterns) ∧
      detect .user Detection.standard (Chunk.ofRoles (invert withIdler)) Run.unwatched =
        .ok (after', patterns') ∧
      after.cancelled = false ∧ after'.cancelled = false ∧
      patterns'.map (·.support) = [2] ∧
      patterns' = patterns.map fun p => { p with mode := .user } := by
  have hvalid : ({} : Detection).complaints = .ok [] := by decide +kernel
  have hoids : (withIdler.map (·.oid)).Nodup := by decide
  have hones : ∀ r ∈ withIdler, r.weight = 1 := by decide
  have hbound : withIdler.length * (heldProperties withIdler).size < 2 ^ 1023 := by decide +kernel
  obtain ⟨thresholds, hcheck, hreturns, hmap, -⟩ :=
    modes_are_dual hvalid hoids hones (Run.unwatched : Run Unit) (Run.unwatched : Run Unit)
  cases Detection.check_default.symm.trans hcheck
  obtain ⟨after, patterns, h⟩ := (hreturns hbound).1
  have hr := Reference.consistent_ofRecords .role Detection.standard hoids
  have hafter := Reference.cancelled_detect hr Run.unhindered_unwatched h
  obtain ⟨after', patterns', h', hpatterns⟩ := hmap after patterns h hafter
  have hfound : supportsFound (detect .user Detection.standard
      (Chunk.ofRoles (invert withIdler)) Run.unwatched) = some (false, [2]) := by decide +kernel
  rw [h'] at hfound
  obtain ⟨hafter', hsupports⟩ := Prod.mk.inj (Option.some.inj hfound)
  exact ⟨hvalid, hoids, hones, hbound, after, after', patterns, patterns', h, h', hafter, hafter',
    hsupports, hpatterns hafter'⟩

end Pattern
end RoleMining
