import RoleMining.Proofs.Aggregation
import RoleMining.Proofs.Detection.Patterns

/-!
# Supports are closed

A chunk of records says exactly what its members hold. So a candidate is the set of all that its
whole body is related to: the chunks it is an intersection of survive, and their members belong to
the body. Two candidates with one body are therefore equal, and no pattern is lost to a heavier one.
-/
namespace RoleMining

/-- Every chunk has a member, and its property set is what each of its members is related to. -/
structure Chunk.Describes (related : String → String → Prop) (chunks : List Chunk) : Prop where
  inhabited : ∀ c ∈ chunks, ∃ x, x ∈ c.members
  exact : ∀ c ∈ chunks, ∀ x ∈ c.members, ∀ y, y ∈ c.propertySet ↔ related x y

namespace Reference

variable {r : Reference} {related : String → String → Prop} {S T B : IdSet}

section Closed

variable (hdescribes : Chunk.Describes related r.chunks)
include hdescribes

theorem IsCandidate.exists_mem_body (hS : r.IsCandidate S) (hB : r.IsBody S B) : ∃ x, x ∈ B := by
  obtain ⟨-, n, hlow, -, hmeet⟩ := hS
  obtain ⟨k, rfl⟩ := Nat.exists_eq_add_of_le' hlow
  obtain ⟨s, hs, hsub⟩ := hmeet.exists_superset
  obtain ⟨c, hc, rfl⟩ := List.mem_map.1 hs
  obtain ⟨x, hx⟩ := hdescribes.inhabited c (List.mem_of_mem_filter hc)
  exact ⟨x, (hB x).2 ⟨c, hc, hsub, hx⟩⟩

/-- A candidate is all that its whole body is related to. -/
theorem IsCandidate.mem_iff (hS : r.IsCandidate S) (hB : r.IsBody S B) {y : String} :
    y ∈ S ↔ ∀ x ∈ B, related x y := by
  obtain ⟨-, n, -, -, chosen, hsub, -, hmem⟩ := hS
  constructor
  · intro hy x hx
    obtain ⟨c, hc, hSc, hxc⟩ := (hB x).1 hx
    exact (hdescribes.exact c (List.mem_of_mem_filter hc) x hxc y).1 (hSc y hy)
  · intro hall
    -- every chosen chunk survives, so its members are part of the body
    apply (hmem y).2
    intro s hs
    obtain ⟨c, hc, rfl⟩ := List.mem_map.1 (hsub.mem hs)
    have hmember := List.mem_of_mem_filter hc
    obtain ⟨x, hx⟩ := hdescribes.inhabited c hmember
    have hSc : S ⊆ c.propertySet := fun z hz => (hmem z).1 hz _ hs
    exact (hdescribes.exact c hmember x hx y).2 (hall x ((hB x).2 ⟨c, hc, hSc, hx⟩))

theorem Supports.unique (hS : r.Supports S B) (hT : r.Supports T B) : S = T :=
  IdSet.ext_mem fun _ => (hS.candidate.mem_iff hdescribes hS.body).trans
    (hT.candidate.mem_iff hdescribes hT.body).symm

/-- Where supports are closed, a body has no better support than any it has. -/
theorem Supports.isFinding (hS : r.Supports S B) : r.IsFinding S B where
  toSupports := hS
  best T hT := by
    rw [hT.unique hdescribes hS]
    exact Pattern.Outranks.refl S

end Closed

/-! ### The references of two axes -/

/-- What is to be found among records: in one mode the members of chunks are roles, in the other
they are users. -/
def ofRecords (mode : Mode) (records : List Record) (thresholds : Thresholds) : Reference :=
  match mode with
  | .user =>
    { chunks := Chunk.ofRoles records
      bodyWeight := fun _ => 1
      supportWeight := weightIn (weightMap records).find?
      thresholds }
  | .role =>
    { chunks := Chunk.ofUsers records
      bodyWeight := weightIn (weightMap records).find?
      supportWeight := fun _ => 1
      thresholds }

/-- Whether a member of a mode's chunks is related to an identifier of the other axis. -/
def Related (mode : Mode) (records : List Record) (x y : String) : Prop :=
  match mode with
  | .user => Record.Holds records y x
  | .role => Record.Holds records x y

section Records

variable (mode : Mode) {records : List Record} (thresholds : Thresholds)

@[simp] theorem thresholds_ofRecords :
    (ofRecords mode records thresholds).thresholds = thresholds := by
  cases mode <;> rfl

/-- A search among chunks of records reads its thresholds only. -/
theorem detect_ofRecords {α : Type} (run : Run α) :
    Pattern.detect mode (ofRecords mode records thresholds).thresholds
      (ofRecords mode records thresholds).chunks run =
    Pattern.detect mode thresholds (ofRecords mode records thresholds).chunks run := by
  rw [thresholds_ofRecords]

section Distinct

-- inverted records are distinct anyway
variable (hoids : mode = .role → (records.map (·.oid)).Nodup)
include hoids

theorem consistent_ofRecords_of_role :
    Chunk.Consistent (ofRecords mode records thresholds).bodyWeight
      (ofRecords mode records thresholds).supportWeight
      (ofRecords mode records thresholds).chunks := by
  cases mode with
  | user =>
    have hone : ∀ r ∈ invert records, (fun _ => (1 : ℤ)) r.oid = r.weight :=
      fun r hr => (weight_of_mem_invert hr).symm
    exact Chunk.consistent_aggregate (nodup_oid_invert records) hone one_le_weightMap
  | role =>
    have hone : ∀ x, 1 ≤ weightIn (Ledger.empty : Ledger String ℤ).find? x := fun _ => le_rfl
    exact Chunk.consistent_aggregate (hoids rfl) (fun _ hr => weightIn_weightMap (hoids rfl) hr)
      hone

theorem describes_ofRecords_of_role :
    Chunk.Describes (Related mode records) (ofRecords mode records thresholds).chunks := by
  cases mode with
  | user =>
    refine ⟨fun c hc => Chunk.members_ne_nil_of_mem_aggregate hc, fun c hc x hx y => ?_⟩
    rw [Chunk.mem_propertySet_iff (nodup_oid_invert records) hc hx, holds_invert_iff]
    rfl
  | role =>
    refine ⟨fun c hc => Chunk.members_ne_nil_of_mem_aggregate hc, fun c hc x hx y => ?_⟩
    exact Chunk.mem_propertySet_iff (hoids rfl) hc hx

end Distinct

variable (hoids : (records.map (·.oid)).Nodup)
include hoids

theorem consistent_ofRecords : Chunk.Consistent (ofRecords mode records thresholds).bodyWeight
    (ofRecords mode records thresholds).supportWeight
    (ofRecords mode records thresholds).chunks :=
  consistent_ofRecords_of_role mode thresholds fun _ => hoids

theorem describes_ofRecords :
    Chunk.Describes (Related mode records) (ofRecords mode records thresholds).chunks :=
  describes_ofRecords_of_role mode thresholds fun _ => hoids

/-- Where every record has its weight, those that have some properties weigh together what their
identities weigh. -/
theorem weighted_eq_sum_of_weight {weight : String → ℤ}
    (hweight : ∀ r ∈ records, weight r.oid = r.weight) {oids properties : IdSet}
    (hholders : ∀ u, u ∈ oids ↔ ∃ r ∈ records, r.oid = u ∧ properties ⊆ r.properties) :
    oids.weighted weight =
      ((records.filter fun r => properties.isSubset r.properties).map (·.weight)).sum := by
  have hperm : oids.toList.Perm
      ((records.filter fun r => properties.isSubset r.properties).map (·.oid)) := by
    refine (List.perm_ext_iff_of_nodup oids.nodup_toList
      (hoids.sublist (List.filter_sublist.map _))).2 fun u => ?_
    simp only [List.mem_map, List.mem_filter, IdSet.subset_iff, and_assoc]
    exact (hholders u).trans (exists_congr fun r => and_congr_right fun _ => and_comm)
  rw [IdSet.weighted_eq_sum_map, (hperm.map _).sum_eq, List.map_map]
  congr 1
  apply List.map_congr_left
  intro r hr
  exact hweight r (List.mem_of_mem_filter hr)

/-- The records of the users that hold all of some roles weigh together what the users weigh. -/
theorem weighted_weightMap_eq_sum {users roles : IdSet}
    (husers : ∀ u, u ∈ users ↔ ∃ r ∈ records, r.oid = u ∧ roles ⊆ r.properties) :
    users.weighted (weightIn (weightMap records).find?) =
      ((records.filter fun r => roles.isSubset r.properties).map (·.weight)).sum :=
  weighted_eq_sum_of_weight hoids (fun _ hr => weightIn_weightMap hoids hr) husers

end Records

section Detect

variable {α : Type} {mode : Mode} {run after : Run α} {patterns : List Pattern}
variable (hr : Chunk.Consistent r.bodyWeight r.supportWeight r.chunks)
variable (h : Pattern.detect mode r.thresholds r.chunks run = .ok (after, patterns))
variable (hafter : after.cancelled = false)
include hr h hafter

theorem isFinding_of_mem_detect {p : Pattern} (hp : p ∈ patterns) :
    r.IsFinding p.members p.properties :=
  ((mem_detect_iff hr h hafter).1 hp).finding

theorem nodup_members_detect : (patterns.map (·.members)).Nodup := by
  have hnodup := nodup_properties_detect hr h
  apply hnodup.of_map.map_on
  intro p hp q hq hmembers
  have hpBody := (isFinding_of_mem_detect hr h hafter hp).body
  have hqBody := (isFinding_of_mem_detect hr h hafter hq).body
  rw [hmembers] at hpBody
  exact List.inj_on_of_nodup_map hnodup hp hq (hpBody.unique hqBody)

/-- On chunks that describe a relation every supported body is reported with each of its supports,
for there is one only. -/
theorem exists_mem_detect_of_describes (hdescribes : Chunk.Describes related r.chunks)
    (hS : r.Supports S B) : ∃ p ∈ patterns, p.members = S ∧ p.properties = B := by
  obtain ⟨p, hp, hB⟩ := exists_mem_detect hr h hafter hS
  have hfinding := isFinding_of_mem_detect hr h hafter hp
  rw [hB] at hfinding
  exact ⟨p, hp, hfinding.toSupports.unique hdescribes hS, hB⟩

/-- A detection that returns has given every supported body a score. -/
theorem isSome_score_of_detect (hdescribes : Chunk.Describes related r.chunks)
    (hS : r.Supports S B) :
    (Binary64.ofInt? (B.weighted r.bodyWeight * S.weighted r.supportWeight)).isSome = true := by
  obtain ⟨p, hp, rfl, rfl⟩ := exists_mem_detect_of_describes hr h hafter hdescribes hS
  rw [((mem_detect_iff hr h hafter).1 hp).score_eq]
  rfl

/-- A pattern's members are all that its whole body is related to. -/
theorem mem_members_iff (hdescribes : Chunk.Describes related r.chunks) {p : Pattern}
    (hp : p ∈ patterns) {y : String} : y ∈ p.members ↔ ∀ x ∈ p.properties, related x y := by
  have hfinding := isFinding_of_mem_detect hr h hafter hp
  exact hfinding.candidate.mem_iff hdescribes hfinding.body

theorem exists_mem_properties (hdescribes : Chunk.Describes related r.chunks) {p : Pattern}
    (hp : p ∈ patterns) : ∃ x, x ∈ p.properties := by
  have hfinding := isFinding_of_mem_detect hr h hafter hp
  exact hfinding.candidate.exists_mem_body hdescribes hfinding.body

end Detect

end Reference

namespace Pattern

/-- Patterns of records are exact and maximal. With options that nothing is wrong with, a detection
among records of distinct identities returns whenever the scores are in range, and fails on no other
ground. If it is not cancelled, no two patterns have the same members, and every candidate with a
body that is large enough is the members of a pattern. Among the chunks of roles a pattern's members
are all users that hold each of its roles, and its support is what their records weigh together;
among the chunks of users its members are all roles that each of its users holds, and its support is
their number. -/
theorem detect_is_exact_and_maximal {α : Type} {options : Detection}
    (hoptions : options.complaints = .ok []) {records : List Record}
    (hoids : (records.map (·.oid)).Nodup) (run : Run α) :
    ∃ thresholds, options.check = .ok thresholds ∧
      (∀ mode, let r := Reference.ofRecords mode records thresholds
        ((∀ S B, r.Supports S B → (Binary64.ofInt?
            (B.weighted r.bodyWeight * S.weighted r.supportWeight)).isSome = true) →
          ∃ after patterns, detect mode thresholds r.chunks run = .ok (after, patterns)) ∧
        (∀ failure, detect mode thresholds r.chunks run = .error failure →
          failure = .numberTooLarge) ∧
        ∀ after patterns, detect mode thresholds r.chunks run = .ok (after, patterns) →
          after.cancelled = false →
          (patterns.map (·.members)).Nodup ∧
          ∀ S B, r.Supports S B → ∃ p ∈ patterns, p.members = S ∧ p.properties = B) ∧
      (∀ after patterns,
        detect .user thresholds (Chunk.ofRoles records) run = .ok (after, patterns) →
        after.cancelled = false → ∀ p ∈ patterns,
        (∀ u, u ∈ p.members ↔ ∃ r ∈ records, r.oid = u ∧ p.properties ⊆ r.properties) ∧
        p.support = ((records.filter fun r => p.properties.isSubset r.properties).map
          (·.weight)).sum) ∧
      ∀ after patterns,
        detect .role thresholds (Chunk.ofUsers records) run = .ok (after, patterns) →
        after.cancelled = false → ∀ p ∈ patterns,
        (∀ x, x ∈ p.members ↔ ∀ u ∈ p.properties, ∃ r ∈ records, r.oid = u ∧ x ∈ r.properties) ∧
        p.support = p.members.size := by
  obtain ⟨thresholds, hcheck, -⟩ := Detection.exists_check hoptions
  refine ⟨thresholds, hcheck, fun mode => ?_, fun after patterns h hafter p hp => ?_,
    fun after patterns h hafter p hp => ?_⟩
  · intro r
    have hr : Chunk.Consistent r.bodyWeight r.supportWeight r.chunks :=
      Reference.consistent_ofRecords mode thresholds hoids
    have hdescribes : Chunk.Describes (Reference.Related mode records) r.chunks :=
      Reference.describes_ofRecords mode thresholds hoids
    have hthresholds : r.thresholds = thresholds := Reference.thresholds_ofRecords mode thresholds
    rw [← hthresholds]
    refine ⟨Reference.exists_detect hr mode run, ?_, ?_⟩
    · intro failure h
      exact (Reference.detect_eq_error hr h).1
    · intro after patterns h hafter
      refine ⟨Reference.nodup_members_detect hr h hafter, fun S B hS => ?_⟩
      exact Reference.exists_mem_detect_of_describes hr h hafter hdescribes hS
  · have hr := Reference.consistent_ofRecords .user thresholds hoids
    have hdescribes := Reference.describes_ofRecords .user thresholds hoids
    have hsome := Reference.exists_mem_properties hr h hafter hdescribes hp
    have husers : ∀ u, u ∈ p.members ↔ ∃ r ∈ records, r.oid = u ∧ p.properties ⊆ r.properties :=
      fun u => (Reference.mem_members_iff hr h hafter hdescribes hp).trans
        (Record.forall_holds_iff hoids hsome)
    refine ⟨husers, ?_⟩
    rw [← Reference.weighted_weightMap_eq_sum hoids husers]
    exact ((Reference.mem_detect_iff hr h hafter).1 hp).support_eq
  · have hr := Reference.consistent_ofRecords .role thresholds hoids
    have hdescribes := Reference.describes_ofRecords .role thresholds hoids
    refine ⟨fun x => Reference.mem_members_iff hr h hafter hdescribes hp, ?_⟩
    rw [((Reference.mem_detect_iff hr h hafter).1 hp).support_eq]
    exact IdSet.weighted_one p.members

/-- Two users have the same two roles, and one of them weighs three. -/
def twoUsers : List Record :=
  [.single "ann" (.ofList ["dev", "ops"]), ⟨"bob", .ofList ["dev", "ops"], 3, by decide⟩]

theorem detect_finds_both_users : ∃ (after : Run Unit) (patterns : List Pattern) (p : Pattern),
    ({} : Detection).complaints = .ok [] ∧ (twoUsers.map (·.oid)).Nodup ∧
    detect .user Detection.standard (Chunk.ofRoles twoUsers) Run.unwatched = .ok (after, patterns) ∧
    after.cancelled = false ∧ p ∈ patterns ∧ p.properties = .ofList ["dev", "ops"] ∧
    "bob" ∈ p.members ∧ p.support = 4 := by
  have hvalid : ({} : Detection).complaints = .ok [] := by decide +kernel
  have hoids : (twoUsers.map (·.oid)).Nodup := by decide
  obtain ⟨thresholds, hcheck, hmodes, huser, -⟩ :=
    detect_is_exact_and_maximal hvalid hoids (Run.unwatched : Run Unit)
  cases Detection.check_default.symm.trans hcheck
  obtain ⟨hreturns, -, hfound⟩ := hmodes .user
  let r : Reference := .ofRecords .user twoUsers Detection.standard
  have hr : Chunk.Consistent r.bodyWeight r.supportWeight r.chunks :=
    Reference.consistent_ofRecords .user Detection.standard hoids
  obtain ⟨after, patterns, hdetect⟩ :=
    hreturns fun S B hS => Reference.score_fits hr (by decide +kernel) hS
  have hafter := Reference.cancelled_detect hr Run.unhindered_unwatched hdetect
  have hsupports : r.Supports (.ofList ["ann", "bob"]) (.ofList ["dev", "ops"]) := by
    have hcandidate : IsMeet 1 r.supportSets (.ofList ["ann", "bob"]) :=
      isMeet_one_iff.2 (by decide +kernel)
    exact ⟨⟨by decide +kernel, 1, by omega, by omega, hcandidate⟩,
      Reference.bodyOf_eq_iff.1 (by decide +kernel), by decide +kernel⟩
  obtain ⟨p, hp, -, hB⟩ := (hfound after patterns hdetect hafter).2 _ _ hsupports
  obtain ⟨hmembers, hsupport⟩ := huser after patterns hdetect hafter p hp
  rw [hB] at hmembers hsupport
  refine ⟨after, patterns, p, hvalid, hoids, hdetect, hafter, hp, hB, ?_, ?_⟩
  · exact (hmembers "bob").2
      ⟨⟨"bob", .ofList ["dev", "ops"], 3, by decide⟩, by decide, rfl, fun _ h => h⟩
  · rw [hsupport]
    decide

/-- A user whose weight is beyond the range of doubles has two roles. -/
def hugeUser : List Record := [⟨"ann", .ofList ["dev", "ops"], 10 ^ 309, by decide +kernel⟩]

theorem detect_misses_pattern_of_huge_user :
    ({} : Detection).complaints = .ok [] ∧ ({} : Detection).check = .ok Detection.standard ∧
    (hugeUser.map (·.oid)).Nodup ∧
    (Reference.ofRecords .user hugeUser Detection.standard).Supports (.ofList ["ann"])
      (.ofList ["dev", "ops"]) ∧
    detect .user Detection.standard (Chunk.ofRoles hugeUser) (Run.unwatched : Run Unit) =
      .error .numberTooLarge := by
  have hoids : (hugeUser.map (·.oid)).Nodup := by decide
  have hr := Reference.consistent_ofRecords .user Detection.standard hoids
  have hsupports : (Reference.ofRecords .user hugeUser Detection.standard).Supports
      (.ofList ["ann"]) (.ofList ["dev", "ops"]) := by
    have hcandidate : IsMeet 1 (Reference.ofRecords .user hugeUser Detection.standard).supportSets
        (.ofList ["ann"]) := isMeet_one_iff.2 (by decide +kernel)
    exact ⟨⟨by decide +kernel, 1, by omega, by omega, hcandidate⟩,
      Reference.bodyOf_eq_iff.1 (by decide +kernel), by decide +kernel⟩
  refine ⟨by decide +kernel, Detection.check_default, hoids, hsupports, ?_⟩
  have hnone : (detect .user Detection.standard (Chunk.ofRoles hugeUser)
      (Run.unwatched : Run Unit)).toOption.isNone = true := by decide +kernel
  cases h : detect .user Detection.standard (Chunk.ofRoles hugeUser) (Run.unwatched : Run Unit) with
  | ok result =>
    rw [h] at hnone
    cases hnone
  | error failure => rw [(Reference.detect_eq_error hr h).1]

end Pattern
end RoleMining
