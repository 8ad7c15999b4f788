import RoleMining.Proofs.Detection.Copying

/-!
# A weight is worth as many records

A record that stands for some members can give way to as many records of one member each, under
names of their own. The users then give way to copies and the roles to themselves, on either axis,
and chunks of the copies are the copies of chunks. So detection finds the same bodies with the same
numbers: nothing in it counts identifiers where it should weigh them.
-/
namespace RoleMining

/-! ### Copies of records -/

namespace Record

/-- As many records of one member as a record has members. -/
def copiesOf (name : String → ℕ → String) (r : Record) : List Record :=
  (List.range r.weight.toNat).map fun i => .single (name r.oid i) r.properties

/-- Each record gives way to its copies. -/
def copies (name : String → ℕ → String) (records : List Record) : List Record :=
  records.flatMap (copiesOf name)

/-- The identities of the copies, in the place of the identities they are copies of. -/
def copying (name : String → ℕ → String) (records : List Record) : Copying where
  copies := .ofList ((copies name records).map (·.oid))
  origin x :=
    (valueAt x (records.flatMap fun r => (copiesOf name r).map fun c => (c.oid, r.oid))).getD x

variable {name : String → ℕ → String} {records : List Record} {r c : Record} {x : String}

theorem mem_copiesOf_iff :
    c ∈ copiesOf name r ↔ ∃ i < r.weight.toNat, single (name r.oid i) r.properties = c := by
  simp [copiesOf]

theorem mem_copies_iff : c ∈ copies name records ↔ ∃ r ∈ records, c ∈ copiesOf name r :=
  List.mem_flatMap

theorem properties_of_mem_copiesOf (hc : c ∈ copiesOf name r) : c.properties = r.properties := by
  obtain ⟨i, -, rfl⟩ := mem_copiesOf_iff.1 hc
  rfl

theorem weight_of_mem_copiesOf (hc : c ∈ copiesOf name r) : c.weight = 1 := by
  obtain ⟨i, -, rfl⟩ := mem_copiesOf_iff.1 hc
  rfl

theorem length_copiesOf : ((copiesOf name r).length : ℤ) = r.weight := by
  rw [copiesOf, List.length_map, List.length_range]
  exact Int.toNat_of_nonneg (le_trans (by decide) r.positive)

/-- No record goes without a copy. -/
theorem exists_mem_copiesOf (name : String → ℕ → String) (r : Record) :
    ∃ c, c ∈ copiesOf name r := by
  refine List.exists_mem_of_length_pos ?_
  have hlength : ((copiesOf name r).length : ℤ) = r.weight := length_copiesOf
  have hpositive := r.positive
  omega

theorem mem_copying_iff : x ∈ (copying name records).copies ↔
    ∃ r ∈ records, ∃ c ∈ copiesOf name r, c.oid = x := by
  simp only [copying, IdSet.mem_ofList, List.mem_map, mem_copies_iff]
  constructor
  · intro hx
    rcases hx with ⟨c, ⟨r, hr, hc⟩, he⟩
    exact ⟨r, hr, c, hc, he⟩
  · intro hx
    rcases hx with ⟨r, hr, c, hc, he⟩
    exact ⟨c, ⟨r, hr, hc⟩, he⟩

section Distinct

variable (hcopies : ((copies name records).map (·.oid)).Nodup)
include hcopies

theorem origin_copying (hr : r ∈ records) (hc : c ∈ copiesOf name r) :
    (copying name records).origin c.oid = r.oid := by
  have hkeys : (records.flatMap fun r => (copiesOf name r).map fun c => (c.oid, r.oid)).map
      Prod.fst = (copies name records).map (·.oid) := by
    simp [copies, List.map_flatMap, Function.comp_def]
  have hentry : (c.oid, r.oid) ∈
      records.flatMap fun r => (copiesOf name r).map fun c => (c.oid, r.oid) :=
    List.mem_flatMap.2 ⟨r, hr, List.mem_map_of_mem (f := fun c => (c.oid, r.oid)) hc⟩
  change (valueAt c.oid _).getD c.oid = r.oid
  rw [valueAt_of_mem (hkeys ▸ hcopies) hentry, Option.getD_some]

variable (hoids : (records.map (·.oid)).Nodup)
include hoids

/-- Behind the copies of one identity stands one record. -/
theorem copies_with_origin (hr : r ∈ records) :
    {y ∈ (copying name records).copies.toFinset | (copying name records).origin y = r.oid} =
      ((copiesOf name r).map (·.oid)).toFinset := by
  ext y
  rw [Finset.mem_filter, IdSet.mem_toFinset, List.mem_toFinset, List.mem_map, mem_copying_iff]
  constructor
  · intro hy
    rcases hy with ⟨⟨r', hr', c, hc, rfl⟩, horigin⟩
    rw [origin_copying hcopies hr' hc] at horigin
    exact ⟨c, eq_of_oid_eq hoids hr' hr horigin ▸ hc, rfl⟩
  · intro hy
    rcases hy with ⟨c, hc, rfl⟩
    exact ⟨⟨r, hr, c, hc, rfl⟩, origin_copying hcopies hr hc⟩

omit hoids in
/-- The copies of a record weigh one each, and there are as many as it weighs. -/
theorem sum_weights_copiesOf (hr : r ∈ records) :
    ∑ y ∈ ((copiesOf name r).map (·.oid)).toFinset,
      weightIn (weightMap (copies name records)).find? y = r.weight := by
  have hnodup : ((copiesOf name r).map (·.oid)).Nodup := by
    rw [copies, List.map_flatMap] at hcopies
    exact (List.nodup_flatMap.1 hcopies).1 r hr
  have hones : (copiesOf name r).map
      (fun c => weightIn (weightMap (copies name records)).find? c.oid) =
      (copiesOf name r).map fun _ => (1 : ℤ) := by
    refine List.map_congr_left fun c hc => ?_
    rw [weightIn_weightMap hcopies (mem_copies_iff.2 ⟨r, hr, hc⟩), weight_of_mem_copiesOf hc]
  calc
    _ = ((copiesOf name r).map
        fun c => weightIn (weightMap (copies name records)).find? c.oid).sum := by
      rw [List.sum_toFinset _ hnodup, List.map_map]
      rfl
    _ = ((copiesOf name r).length : ℤ) := by
      rw [hones, List.map_const', List.sum_replicate, nsmul_one]
    _ = r.weight := length_copiesOf

theorem faithful_copying : (copying name records).Faithful (.ofList (records.map (·.oid)))
    (weightIn (weightMap records).find?) (weightIn (weightMap (copies name records)).find?) where
  covers x hx := by
    obtain ⟨r, hr, rfl⟩ := List.mem_map.1 (IdSet.mem_ofList.1 hx)
    obtain ⟨c, hc⟩ := exists_mem_copiesOf name r
    exact ⟨c.oid, mem_copying_iff.2 ⟨r, hr, c, hc, rfl⟩, origin_copying hcopies hr hc⟩
  weighs x hx := by
    obtain ⟨r, hr, rfl⟩ := List.mem_map.1 (IdSet.mem_ofList.1 hx)
    rw [copies_with_origin hcopies hoids hr, sum_weights_copiesOf hcopies hr,
      weightIn_weightMap hoids hr]

end Distinct

/-! ### Copies on both axes -/

/-- Some records say of copies what others say of their origins. -/
def Spreads (owners properties : Copying) (records records' : List Record) : Prop :=
  ∀ x P, (∃ r' ∈ records', r'.oid = x ∧ r'.properties = P) ↔
    x ∈ owners.copies ∧ ∃ r ∈ records, r.oid = owners.origin x ∧ properties.spread r.properties = P

section Axes

variable (hcopies : ((copies name records).map (·.oid)).Nodup)
variable (hoids : (records.map (·.oid)).Nodup)
include hcopies hoids

/-- The copies of a user hold what the user holds. -/
theorem spreads_copies : Spreads (copying name records) (.itself (heldProperties records)) records
    (copies name records) := by
  intro x P
  have hheld : ∀ r ∈ records,
      (Copying.itself (heldProperties records)).spread r.properties = r.properties :=
    fun r hr => Copying.spread_itself (properties_subset_heldProperties hr)
  rw [mem_copying_iff]
  constructor
  · intro hcopy
    rcases hcopy with ⟨c, hc, rfl, rfl⟩
    obtain ⟨r, hr, hc⟩ := mem_copies_iff.1 hc
    refine ⟨⟨r, hr, c, hc, rfl⟩, r, hr, (origin_copying hcopies hr hc).symm, ?_⟩
    rw [hheld r hr, properties_of_mem_copiesOf hc]
  · intro horigin
    rcases horigin with ⟨⟨r, hr, c, hc, rfl⟩, r', hr', hoid, rfl⟩
    rw [origin_copying hcopies hr hc] at hoid
    obtain rfl := eq_of_oid_eq hoids hr' hr hoid
    refine ⟨c, mem_copies_iff.2 ⟨r', hr, hc⟩, rfl, ?_⟩
    rw [hheld r' hr, properties_of_mem_copiesOf hc]

theorem holds_copies_iff {property : String} :
    Holds (copies name records) x property ↔ x ∈ (copying name records).copies ∧
      Holds records ((copying name records).origin x) property := by
  have hspreads := spreads_copies hcopies hoids x
  constructor
  · intro hholds
    rcases hholds with ⟨c, hc, hoid, hproperty⟩
    obtain ⟨hcopy, r, hr, horigin, hspread⟩ := (hspreads c.properties).1 ⟨c, hc, hoid, rfl⟩
    rw [← hspread] at hproperty
    exact ⟨hcopy, r, hr, horigin, (Copying.mem_spread.1 hproperty).2⟩
  · intro hholds
    rcases hholds with ⟨hcopy, r, hr, horigin, hproperty⟩
    obtain ⟨c, hc, hoid, hspread⟩ := (hspreads _).2 ⟨hcopy, r, hr, horigin, rfl⟩
    rw [Copying.spread_itself (properties_subset_heldProperties hr)] at hspread
    exact ⟨c, hc, hoid, hspread ▸ hproperty⟩

theorem holders_copies (property : String) :
    holders (copies name records) property =
      (copying name records).spread (holders records property) := by
  refine IdSet.ext_mem fun x => ?_
  rw [Copying.mem_spread, mem_holders_iff, mem_holders_iff, holds_copies_iff hcopies hoids]

omit hcopies hoids in
theorem heldProperties_copies : heldProperties (copies name records) = heldProperties records := by
  refine IdSet.ext_mem fun x => ?_
  rw [mem_heldProperties, mem_heldProperties]
  constructor
  · intro hx
    rcases hx with ⟨c, hc, hx⟩
    obtain ⟨r, hr, hc⟩ := mem_copies_iff.1 hc
    exact ⟨r, hr, properties_of_mem_copiesOf hc ▸ hx⟩
  · intro hx
    rcases hx with ⟨r, hr, hx⟩
    obtain ⟨c, hc⟩ := exists_mem_copiesOf name r
    exact ⟨c, mem_copies_iff.2 ⟨r, hr, hc⟩, properties_of_mem_copiesOf hc ▸ hx⟩

/-- A role is held by the copies of those who hold it. -/
theorem spreads_invert : Spreads (.itself (heldProperties records)) (copying name records)
    (invert records) (invert (copies name records)) := by
  intro x P
  rw [exists_mem_invert_iff (p := fun Q => Q = P), heldProperties_copies,
    holders_copies hcopies hoids, Copying.copies_itself, Copying.origin_itself,
    exists_mem_invert_iff (p := fun Q => (copying name records).spread Q = P)]
  exact (and_iff_right_of_imp fun h => h.1).symm

end Axes

end Record

/-! ### Chunks of copies -/

namespace Chunk

variable {kind kind' : Kind} {propertyWeights propertyWeights' : Ledger String ℤ}
variable {records records' : List Record} {owners properties : Copying} {key ids : IdSet}

/-- A property set and who has exactly that. -/
def sidesOf (records : List Record) (key : IdSet) : IdSet × IdSet :=
  (key, .ofList ((groupOf records key).map (·.oid)))

theorem mem_sidesOf_iff {x : String} : x ∈ (sidesOf records key).2 ↔
    ∃ r ∈ records, r.oid = x ∧ r.properties = key := by
  simp only [sidesOf, IdSet.mem_ofList, List.mem_map, mem_groupOf, and_assoc]
  exact exists_congr fun r => and_congr_right fun _ => and_comm

theorem sides_aggregate (kind : Kind) (propertyWeights : Ledger String ℤ) (records : List Record) :
    ((aggregate kind propertyWeights records).map sides).Perm
      ((records.map (·.properties)).eraseDups.map (sidesOf records)) := by
  have hsides (key : IdSet) : (sides ∘ ofGroup kind (Width.holding (records.map (·.weight)))
      propertyWeights records) key = sidesOf records key :=
    Prod.ext propertySet_ofGroup (IdSet.ofList_toList _)
  unfold aggregate
  refine ((List.mergeSort_perm _ _).map _).trans (.of_eq ?_)
  rw [List.map_map]
  exact List.map_congr_left fun key _ => hsides key

theorem properties_aggregate_subset (hids : ∀ r ∈ records, r.properties ⊆ ids) :
    .ofList ((aggregate kind propertyWeights records).flatMap (·.properties)) ⊆ ids := by
  intro x hx
  obtain ⟨c, hc, hxc⟩ := List.mem_flatMap.1 (IdSet.mem_ofList.1 hx)
  obtain ⟨r, hr, rfl⟩ := mem_aggregate_iff.1 hc
  exact hids r hr x hxc

theorem members_aggregate_subset (hids : ∀ r ∈ records, r.oid ∈ ids) :
    .ofList ((aggregate kind propertyWeights records).flatMap (·.members)) ⊆ ids := by
  intro x hx
  obtain ⟨c, hc, hxc⟩ := List.mem_flatMap.1 (IdSet.mem_ofList.1 hx)
  obtain ⟨r, -, rfl⟩ := mem_aggregate_iff.1 hc
  obtain ⟨r', hr', -, rfl⟩ := mem_members_ofGroup.1 hxc
  exact hids r' hr'

section Spreads

variable {weight weight' : String → ℤ}
variable (hspreads : Record.Spreads owners properties records records')
variable (hproperties : properties.Faithful ids weight weight')
variable (hids : ∀ r ∈ records, r.properties ⊆ ids)
include hspreads hproperties hids

/-- Different property sets stay different, so no two chunks become one. -/
theorem sidesOf_spread {r : Record} (hr : r ∈ records) :
    sidesOf records' (properties.spread r.properties) =
      Prod.map properties.spread owners.spread (sidesOf records r.properties) := by
  refine Prod.ext rfl (IdSet.ext_mem fun x => ?_)
  rw [mem_sidesOf_iff, hspreads, Prod.map_snd, Copying.mem_spread, mem_sidesOf_iff]
  refine and_congr_right fun _ => exists_congr fun r' => and_congr_right fun hr' => ?_
  exact and_congr_right fun _ =>
    ⟨hproperties.spread_inj (hids r' hr') (hids r hr), congrArg properties.spread⟩

variable (howners : ∀ r ∈ records, ∃ x ∈ owners.copies, owners.origin x = r.oid)
include howners

theorem keys_perm : (records'.map (·.properties)).eraseDups.Perm
    ((records.map (·.properties)).eraseDups.map properties.spread) := by
  have hinj : ((records.map (·.properties)).eraseDups.map properties.spread).Nodup := by
    refine (nodup_eraseDups _).map_on fun P hP Q hQ => ?_
    obtain ⟨r, hr, rfl⟩ := List.mem_map.1 (List.mem_eraseDups.1 hP)
    obtain ⟨r', hr', rfl⟩ := List.mem_map.1 (List.mem_eraseDups.1 hQ)
    exact hproperties.spread_inj (hids r hr) (hids r' hr')
  refine (List.perm_ext_iff_of_nodup (nodup_eraseDups _) hinj).2 fun P => ?_
  simp only [List.mem_eraseDups, List.mem_map, exists_exists_and_eq_and]
  constructor
  · intro hP
    rcases hP with ⟨r', hr', hP⟩
    obtain ⟨-, r, hr, -, hspread⟩ := (hspreads r'.oid P).1 ⟨r', hr', rfl, hP⟩
    exact ⟨r, hr, hspread⟩
  · intro hP
    rcases hP with ⟨r, hr, hspread⟩
    obtain ⟨x, hx, horigin⟩ := howners r hr
    obtain ⟨r', hr', -, hP⟩ := (hspreads x P).2 ⟨hx, r, hr, horigin.symm, hspread⟩
    exact ⟨r', hr', hP⟩

/-- The chunks of copies are the copies of the chunks. -/
theorem sides_aggregate_perm : ((aggregate kind' propertyWeights' records').map sides).Perm
    (((aggregate kind propertyWeights records).map sides).map
      (Prod.map properties.spread owners.spread)) := by
  refine (sides_aggregate _ _ _).trans (.trans ?_ ((sides_aggregate _ _ _).map _).symm)
  refine ((keys_perm hspreads hproperties hids howners).map _).trans (.of_eq ?_)
  rw [List.map_map, List.map_map]
  refine List.map_congr_left fun P hP => ?_
  obtain ⟨r, hr, rfl⟩ := List.mem_map.1 (List.mem_eraseDups.1 hP)
  exact sidesOf_spread hspreads hproperties hids hr

end Spreads

end Chunk

/-! ### Detection -/

namespace Reference

variable {name : String → ℕ → String} {records : List Record} (thresholds : Thresholds)
variable (hoids : (records.map (·.oid)).Nodup)
variable (hcopies : ((Record.copies name records).map (·.oid)).Nodup)
include hoids hcopies

/-- In chunks of roles the users are what the members have in common. -/
theorem isCopy_ofRoles : (ofRecords .user records thresholds).IsCopy
    (ofRecords .user (Record.copies name records) thresholds)
    (.itself (heldProperties records)) (Record.copying name records) := by
  have husers := Record.faithful_copying hcopies hoids
  have hholders : ∀ r ∈ invert records, r.properties ⊆ .ofList (records.map (·.oid)) := by
    intro r hr u hu
    obtain ⟨role, -, rfl⟩ := List.mem_map.1 hr
    obtain ⟨r, hr, rfl, -⟩ := mem_holders_iff.1 hu
    exact IdSet.mem_ofList.2 (List.mem_map_of_mem (f := (·.oid)) hr)
  have hroles : ∀ r ∈ invert records, r.oid ∈ heldProperties records :=
    fun r hr => oid_mem_of_mem_invert hr
  refine ⟨rfl, ?_, ?_, ?_⟩
  · exact (Copying.faithful_itself _ _).mono (Chunk.members_aggregate_subset hroles)
  · exact husers.mono (Chunk.properties_aggregate_subset hholders)
  · exact Chunk.sides_aggregate_perm (Record.spreads_invert hcopies hoids) husers hholders
      fun r hr => ⟨r.oid, hroles r hr, rfl⟩

/-- In chunks of users the users are the members. -/
theorem isCopy_ofUsers : (ofRecords .role records thresholds).IsCopy
    (ofRecords .role (Record.copies name records) thresholds)
    (Record.copying name records) (.itself (heldProperties records)) := by
  have husers := Record.faithful_copying hcopies hoids
  have hroles := Copying.faithful_itself (heldProperties records) fun _ => 1
  have hheld : ∀ r ∈ records, r.properties ⊆ heldProperties records :=
    fun r hr => properties_subset_heldProperties hr
  have hoid : ∀ r ∈ records, r.oid ∈ IdSet.ofList (records.map (·.oid)) :=
    fun r hr => IdSet.mem_ofList.2 (List.mem_map_of_mem (f := (·.oid)) hr)
  refine ⟨rfl, ?_, ?_, ?_⟩
  · exact husers.mono (Chunk.members_aggregate_subset hoid)
  · exact hroles.mono (Chunk.properties_aggregate_subset hheld)
  · exact Chunk.sides_aggregate_perm (Record.spreads_copies hcopies hoids) hroles hheld
      fun r hr => husers.covers r.oid (hoid r hr)

omit hoids hcopies in
/-- What is found among the roles is held. -/
theorem IsBody.subset_heldProperties {S B : IdSet}
    (hB : (ofRecords .user records thresholds).IsBody S B) : B ⊆ heldProperties records :=
  fun x hx => Chunk.members_aggregate_subset (fun _ => oid_mem_of_mem_invert) x
    (hB.subset_members x hx)

omit hoids hcopies in
theorem IsCandidate.subset_heldProperties {S : IdSet}
    (hS : (ofRecords .role records thresholds).IsCandidate S) : S ⊆ heldProperties records :=
  fun x hx => Chunk.properties_aggregate_subset (fun _ => properties_subset_heldProperties) x
    (hS.subset_population x hx)

section Detect

variable {α : Type} {run after run' after' : Run α} {patterns patterns' : List Pattern}

/-- On either axis a detection among the copies returns if and only if one among the originals does,
unless it is cancelled. -/
theorem exists_detect_copies (mode : Mode) (run run' : Run α) :
    (∀ after patterns, Pattern.detect mode thresholds
        (ofRecords mode records thresholds).chunks run = .ok (after, patterns) →
      after.cancelled = false →
      ∃ after' patterns', Pattern.detect mode thresholds
        (ofRecords mode (Record.copies name records) thresholds).chunks run' =
          .ok (after', patterns')) ∧
    ∀ after' patterns', Pattern.detect mode thresholds
        (ofRecords mode (Record.copies name records) thresholds).chunks run' =
          .ok (after', patterns') →
      after'.cancelled = false →
      ∃ after patterns, Pattern.detect mode thresholds
        (ofRecords mode records thresholds).chunks run = .ok (after, patterns) := by
  obtain ⟨bodies, supports, hcopy⟩ : ∃ bodies supports, (ofRecords mode records thresholds).IsCopy
      (ofRecords mode (Record.copies name records) thresholds) bodies supports := by
    cases mode with
    | user => exact ⟨_, _, isCopy_ofRoles thresholds hoids hcopies⟩
    | role => exact ⟨_, _, isCopy_ofUsers thresholds hoids hcopies⟩
  have hr := consistent_ofRecords mode thresholds hoids
  have hr' := consistent_ofRecords mode thresholds hcopies
  constructor
  · intro after patterns h hafter
    rw [← detect_ofRecords] at h ⊢
    exact hcopy.exists_detect (describes_ofRecords mode thresholds hoids) hr hr' h hafter mode run'
  · intro after' patterns' h' hafter'
    rw [← detect_ofRecords] at h' ⊢
    exact hcopy.exists_detect_origin (describes_ofRecords mode thresholds hcopies) hr hr' h' hafter'
      mode run

/-- Among the chunks of roles the bodies are roles, which stay and keep the order. -/
theorem map_detect_ofRoles
    (h : Pattern.detect .user thresholds (Chunk.ofRoles records) run = .ok (after, patterns))
    (hafter : after.cancelled = false)
    (h' : Pattern.detect .user thresholds (Chunk.ofRoles (Record.copies name records)) run' =
      .ok (after', patterns'))
    (hafter' : after'.cancelled = false) :
    patterns'.map (fun p => (p.properties, p.support, p.score)) =
      patterns.map fun p => (p.properties, p.support, p.score) := by
  have hr := consistent_ofRecords .user thresholds hoids
  have hself : ∀ p ∈ patterns,
      (Copying.itself (heldProperties records)).spread p.properties = p.properties := by
    intro p hp
    have hfinding := isFinding_of_mem_detect hr h hafter hp
    exact Copying.spread_itself hfinding.body.subset_heldProperties
  rw [(isCopy_ofRoles thresholds hoids hcopies).detect_eq_map
    (describes_ofRecords .user thresholds hoids) (describes_ofRecords .user thresholds hcopies) hr
    (consistent_ofRecords .user thresholds hcopies) h h' hafter hafter' hself, List.map_map]
  refine List.map_congr_left fun p hp => ?_
  simp only [Function.comp_apply, Pattern.spread, hself p hp]

/-- Among the chunks of users the supports are roles, which stay; the bodies are copies, so the
patterns of one support may change places. -/
theorem mem_map_detect_ofUsers
    (h : Pattern.detect .role thresholds (Chunk.ofUsers records) run = .ok (after, patterns))
    (hafter : after.cancelled = false)
    (h' : Pattern.detect .role thresholds (Chunk.ofUsers (Record.copies name records)) run' =
      .ok (after', patterns'))
    (hafter' : after'.cancelled = false) {found : IdSet × ℤ × Binary64} :
    found ∈ patterns'.map (fun p => (p.members, p.support, p.score)) ↔
      found ∈ patterns.map fun p => (p.members, p.support, p.score) := by
  have hr := consistent_ofRecords .role thresholds hoids
  refine (isCopy_ofUsers thresholds hoids hcopies).mem_map_detect_iff
    (describes_ofRecords .role thresholds hoids) (describes_ofRecords .role thresholds hcopies) hr
    (consistent_ofRecords .role thresholds hcopies) h h' hafter hafter' fun p hp => ?_
  have hfinding := isFinding_of_mem_detect hr h hafter hp
  simp only [Pattern.spread, Copying.spread_itself hfinding.candidate.subset_heldProperties]

end Detect

end Reference

namespace Pattern

/-- A record of some weight is worth as many records of one member each. Take options that nothing
is wrong with and records of distinct identities, and let the records give way to copies under
distinct names. If a detection among the ones returns and is not cancelled, any detection among the
others returns. Where neither is cancelled, the patterns among the chunks of roles have the same
roles, supports and scores in the same order. Those among the chunks of users have the same roles,
supports and scores, and no two of them have the same roles. -/
theorem detect_counts_copies {α : Type} {options : Detection}
    (hoptions : options.complaints = .ok []) {records : List Record}
    (hoids : (records.map (·.oid)).Nodup) {name : String → ℕ → String}
    (hcopies : ((Record.copies name records).map (·.oid)).Nodup) (run run' : Run α) :
    ∃ thresholds, options.check = .ok thresholds ∧
      (∀ mode, let r := Reference.ofRecords mode records thresholds
        let r' := Reference.ofRecords mode (Record.copies name records) thresholds
        (∀ after patterns, detect mode thresholds r.chunks run = .ok (after, patterns) →
          after.cancelled = false →
          ∃ after' patterns', detect mode thresholds r'.chunks run' = .ok (after', patterns')) ∧
        ∀ after' patterns', detect mode thresholds r'.chunks run' = .ok (after', patterns') →
          after'.cancelled = false →
          ∃ after patterns, detect mode thresholds r.chunks run = .ok (after, patterns)) ∧
      (∀ after patterns after' patterns',
        detect .user thresholds (Chunk.ofRoles records) run = .ok (after, patterns) →
        after.cancelled = false →
        detect .user thresholds (Chunk.ofRoles (Record.copies name records)) run' =
          .ok (after', patterns') →
        after'.cancelled = false →
        patterns'.map (fun p => (p.properties, p.support, p.score)) =
          patterns.map fun p => (p.properties, p.support, p.score)) ∧
      ∀ after patterns after' patterns',
        detect .role thresholds (Chunk.ofUsers records) run = .ok (after, patterns) →
        after.cancelled = false →
        detect .role thresholds (Chunk.ofUsers (Record.copies name records)) run' =
          .ok (after', patterns') →
        after'.cancelled = false →
        (∀ found, found ∈ patterns'.map (fun p => (p.members, p.support, p.score)) ↔
          found ∈ patterns.map fun p => (p.members, p.support, p.score)) ∧
        (patterns.map (·.members)).Nodup ∧ (patterns'.map (·.members)).Nodup := by
  obtain ⟨thresholds, hcheck, -⟩ := Detection.exists_check hoptions
  refine ⟨thresholds, hcheck,
    fun mode => Reference.exists_detect_copies thresholds hoids hcopies mode run run', ?_, ?_⟩
  · intro after patterns after' patterns' h hafter h' hafter'
    exact Reference.map_detect_ofRoles thresholds hoids hcopies h hafter h' hafter'
  · intro after patterns after' patterns' h hafter h' hafter'
    have hr := Reference.consistent_ofRecords .role thresholds hoids
    have hr' := Reference.consistent_ofRecords .role thresholds hcopies
    exact ⟨fun _ => Reference.mem_map_detect_ofUsers thresholds hoids hcopies h hafter h' hafter',
      Reference.nodup_members_detect hr h hafter, Reference.nodup_members_detect hr' h' hafter'⟩

/-- The name of an identity with a mark for each copy so far. -/
def marked (oid : String) (i : ℕ) : String := oid.pushn '+' (i + 1)

/-- What a detection returned: whether it was cancelled, and the supports of its patterns. -/
def supportsFound (result : Except Failure (Run Unit × List Pattern)) : Option (Bool × List ℤ) :=
  result.toOption.map fun found => (found.1.cancelled, found.2.map (·.support))

theorem exists_of_supportsFound {result : Except Failure (Run Unit × List Pattern)}
    {supports : List ℤ} (h : supportsFound result = some (false, supports)) :
    ∃ after patterns, result = .ok (after, patterns) ∧ after.cancelled = false ∧
      patterns.map (·.support) = supports := by
  cases result with
  | error failure => cases h
  | ok found =>
    obtain ⟨hafter, hsupports⟩ := Prod.mk.inj (Option.some.inj h)
    exact ⟨found.1, found.2, rfl, hafter, hsupports⟩

theorem detect_counts_bob_thrice : ({} : Detection).complaints = .ok [] ∧
    (twoUsers.map (·.oid)).Nodup ∧ ((Record.copies marked twoUsers).map (·.oid)).Nodup ∧
    (∃ (after after' : Run Unit) (patterns patterns' : List Pattern),
      detect .user Detection.standard (Chunk.ofRoles twoUsers) Run.unwatched =
        .ok (after, patterns) ∧
      detect .user Detection.standard (Chunk.ofRoles (Record.copies marked twoUsers))
        Run.unwatched = .ok (after', patterns') ∧
      after.cancelled = false ∧ after'.cancelled = false ∧ patterns.map (·.support) = [4] ∧
      patterns'.map (fun p => (p.properties, p.support, p.score)) =
        patterns.map fun p => (p.properties, p.support, p.score)) ∧
    ∃ (after after' : Run Unit) (patterns patterns' : List Pattern),
      detect .role Detection.standard (Chunk.ofUsers twoUsers) Run.unwatched =
        .ok (after, patterns) ∧
      detect .role Detection.standard (Chunk.ofUsers (Record.copies marked twoUsers))
        Run.unwatched = .ok (after', patterns') ∧
      after.cancelled = false ∧ after'.cancelled = false ∧ patterns.map (·.support) = [2] ∧
      ∀ found, found ∈ patterns'.map (fun p => (p.members, p.support, p.score)) ↔
        found ∈ patterns.map fun p => (p.members, p.support, p.score) := by
  have hvalid : ({} : Detection).complaints = .ok [] := by decide +kernel
  have hoids : (twoUsers.map (·.oid)).Nodup := by decide
  have hcopies : ((Record.copies marked twoUsers).map (·.oid)).Nodup := by decide +kernel
  obtain ⟨thresholds, hcheck, -, huser, hrole⟩ :=
    detect_counts_copies hvalid hoids hcopies (Run.unwatched : Run Unit) Run.unwatched
  cases Detection.check_default.symm.trans hcheck
  refine ⟨hvalid, hoids, hcopies, ?_, ?_⟩
  · have hfound : supportsFound (detect .user Detection.standard (Chunk.ofRoles twoUsers)
        Run.unwatched) = some (false, [4]) := by decide +kernel
    have hfound' : supportsFound (detect .user Detection.standard
        (Chunk.ofRoles (Record.copies marked twoUsers)) Run.unwatched) = some (false, [4]) := by
      decide +kernel
    obtain ⟨after, patterns, h, hafter, hsupports⟩ := exists_of_supportsFound hfound
    obtain ⟨after', patterns', h', hafter', -⟩ := exists_of_supportsFound hfound'
    exact ⟨after, after', patterns, patterns', h, h', hafter, hafter', hsupports,
      huser after patterns after' patterns' h hafter h' hafter'⟩
  · have hfound : supportsFound (detect .role Detection.standard (Chunk.ofUsers twoUsers)
        Run.unwatched) = some (false, [2]) := by decide +kernel
    have hfound' : supportsFound (detect .role Detection.standard
        (Chunk.ofUsers (Record.copies marked twoUsers)) Run.unwatched) = some (false, [2]) := by
      decide +kernel
    obtain ⟨after, patterns, h, hafter, hsupports⟩ := exists_of_supportsFound hfound
    obtain ⟨after', patterns', h', hafter', -⟩ := exists_of_supportsFound hfound'
    exact ⟨after, after', patterns, patterns', h, h', hafter, hafter', hsupports,
      (hrole after patterns after' patterns' h hafter h' hafter').1⟩

end Pattern
end RoleMining
