import RoleMining.Analysis.Basic
import RoleMining.Proofs.Stoppable
import RoleMining.Proofs.Truncation

/-!
# Mining a cluster's members

The members of a cluster are looked up in a directory of records, so they have distinct identities.
In either mode patterns are looked for in the chunks of some records: those of the members, or of
what the members hold. Both searches note a stop and are otherwise settled by their arguments.
-/
namespace RoleMining

variable {α : Type}

/-! ### The directory -/

/-- The records by their identities; of records with one identity the last counts. -/
def Record.directory (records : List Record) : Ledger String Record :=
  .ofList (records.map fun r => (r.oid, r))

namespace Record

variable {records : List Record} {r : Record} {oid : String}

theorem mem_of_find?_directory (h : (directory records).find? oid = some r) :
    r ∈ records ∧ r.oid = oid := by
  rw [directory, Ledger.find?_ofList] at h
  obtain ⟨r', hr', he⟩ := List.mem_map.1 (List.mem_reverse.1 (mem_of_valueAt h))
  obtain ⟨hoid, rfl⟩ := Prod.mk.inj he
  exact ⟨hr', hoid⟩

end Record

/-- What is found for the items of a list, when it tells the item that it was found for. -/
theorem map_filterMap_sublist {β γ : Type} {f : β → Option γ} {key : γ → β} {xs : List β}
    (h : ∀ x ∈ xs, ∀ y, f x = some y → key y = x) : ((xs.filterMap f).map key).Sublist xs := by
  induction xs with
  | nil => exact .slnil
  | cons x xs ih =>
    have hrest := ih fun x' hx' => h x' (List.mem_cons_of_mem x hx')
    rw [List.filterMap_cons]
    split
    next => exact hrest.cons x
    next y hy =>
      rw [List.map_cons, h x List.mem_cons_self y hy]
      exact hrest.cons_cons x

namespace Mined

variable {records members base : List Record} {oids : List String} {weights : Ledger String ℤ}

theorem mem_membersOf {r : Record} (h : r ∈ membersOf (Record.directory records) oids) :
    r ∈ records ∧ r.oid ∈ oids := by
  obtain ⟨oid, hoid, hfind⟩ := List.mem_filterMap.1 h
  obtain ⟨hr, rfl⟩ := Record.mem_of_find?_directory hfind
  exact ⟨hr, hoid⟩

theorem oid_membersOf_sublist (records : List Record) (oids : List String) :
    ((membersOf (Record.directory records) oids).map (·.oid)).Sublist oids :=
  map_filterMap_sublist fun _ _ _ hfind => (Record.mem_of_find?_directory hfind).2

/-! ### Chunks of either mode -/

/-- The records that are chunked: the members, or the users that the members hold. -/
def baseOf (mode : Mode) (weights : Ledger String ℤ) (members : List Record) :
    Except Failure (List Record) :=
  match mode with
  | .user => .ok members
  | .role => invertWeighted weights members

theorem chunksOf_eq (mode : Mode) (weights : Ledger String ℤ) (members : List Record)
    (thresholds : Thresholds) : chunksOf mode weights members =
      baseOf mode weights members >>= fun base =>
        .ok (Reference.ofRecords mode base thresholds).chunks := by
  cases mode <;> rfl

theorem nodup_oid_invertWeighted (h : invertWeighted weights members = .ok base) :
    (base.map (·.oid)).Nodup := by
  have hoids : base.map (·.oid) = (heldProperties members).toList.map id :=
    map_eq_of_mapM_eq_ok (fun _ _ hr => (Record.make_eq_ok_iff.1 hr).1) h
  rw [hoids, List.map_id]
  exact (heldProperties members).nodup_toList

theorem nodup_oid_baseOf {mode : Mode} (hmembers : (members.map (·.oid)).Nodup)
    (h : baseOf mode weights members = .ok base) : (base.map (·.oid)).Nodup := by
  cases mode with
  | user =>
    cases h
    exact hmembers
  | role => exact nodup_oid_invertWeighted h

end Mined

/-! ### The searches -/

namespace Intersection

variable (limits : Limits) (frequencies : Frequencies) (members : List Record)

theorem settles_extract (run : Run α) :
    run.Settles (extract limits frequencies members run).1 :=
  settles_collectIntersections ..

theorem stoppable_extract : Stoppable fun run : Run α =>
    (.ok (extract limits frequencies members run) : Except Failure _) where
  continues := by
    intro run after found h
    have hsettles := settles_extract limits frequencies members run
    rw [Except.ok.inj h] at hsettles
    exact hsettles.toContinues
  told := by
    intro run after found h _
    have hsettles := settles_extract limits frequencies members run
    rw [Except.ok.inj h] at hsettles
    exact hsettles.told
  agrees := by
    intro run full after found hfull h hafter
    have hsettles := settles_extract limits frequencies members run
    have hwhole := ((settles_extract limits frequencies members full).undisturbed hfull).running
    have hsame (hrunning : (extract limits frequencies members run).1.cancelled = false) :
        (extract limits frequencies members full).2 = (extract limits frequencies members run).2 :=
      extract_eq hwhole hrunning
    rw [Except.ok.inj h] at hsettles hsame
    exact ⟨_, congrArg Except.ok (Prod.ext rfl (hsame (hsettles.told.running hafter)))⟩
  returns := fun _ _ => ⟨_, _, rfl⟩

end Intersection

namespace Reference

variable {r : Reference} {related : String → String → Prop} {mode : Mode}

theorem stoppable_detect (hr : Chunk.Consistent r.bodyWeight r.supportWeight r.chunks)
    (hdescribes : Chunk.Describes related r.chunks) :
    Stoppable fun run : Run α => Pattern.detect mode r.thresholds r.chunks run := by
  have hends {run after : Run α} {patterns : List Pattern}
      (h : Pattern.detect mode r.thresholds r.chunks run = .ok (after, patterns)) :
      after = run ∨ run.Settles after := by
    by_cases hempty : r.chunks = []
    · rw [hempty] at h
      cases h
      exact .inl rfl
    · rw [(explored_of_detect hr hempty h).1]
      exact .inr (settles_explore run)
  constructor
  case continues =>
    intro run after patterns h
    rcases hends h with rfl | hsettles
    · exact .refl after
    · exact hsettles.toContinues
  case told =>
    intro run after patterns h htold
    rcases hends h with rfl | hsettles
    · exact htold
    · exact hsettles.told
  case agrees =>
    intro run full after patterns hfull h hafter
    exact exists_detect_of_not_aborted hr hdescribes hfull.toUnhindered h hafter
  case returns =>
    intro run full reached patterns hfull h
    obtain ⟨after, kept, hkept, -⟩ := detect_truncates hr hdescribes hfull.toUnhindered h run
    exact ⟨after, kept, hkept⟩

end Reference

namespace Mined

theorem ofMembers_eq (mode : Mode) (detection : Detection) (frequencies : Frequencies)
    (weights : Ledger String ℤ) (members : List Record) (run : Run α) :
    ofMembers mode detection (some frequencies) weights members run =
      Intersection.Limits.check detection.minIntersection detection.minFrequency
        detection.maxFrequency >>= fun limits =>
      chunksOf mode weights members >>= fun chunks =>
      detection.check >>= fun thresholds =>
      (.ok (Intersection.extract limits frequencies members run)) >>= fun extracted =>
      Pattern.detect mode thresholds chunks extracted.1 >>= fun detected =>
      .ok (detected.1, ⟨extracted.2, detected.2, Pattern.reductionMetric detected.2⟩) := rfl

theorem stoppable_ofMembers (mode : Mode) (detection : Detection) (frequencies : Frequencies)
    (weights : Ledger String ℤ) {members : List Record}
    (hmembers : (members.map (·.oid)).Nodup) :
    Stoppable (ofMembers mode detection (some frequencies) weights members :
      Run α → Except Failure (Run α × Mined)) := by
  rw [funext fun run => ofMembers_eq mode detection frequencies weights members run]
  refine .afterComputing fun limits _ => ?_
  refine .afterComputing fun chunks hchunks => ?_
  refine .afterComputing fun thresholds _ => ?_
  rw [chunksOf_eq mode weights members thresholds] at hchunks
  obtain ⟨base, hbase, hof⟩ := bind_eq_ok_iff.1 hchunks
  obtain rfl := Except.ok.inj hof
  have hoids := nodup_oid_baseOf hmembers hbase
  have hdetect : Stoppable fun run : Run α => Pattern.detect mode
      (Reference.ofRecords mode base thresholds).thresholds
      (Reference.ofRecords mode base thresholds).chunks run :=
    Reference.stoppable_detect (Reference.consistent_ofRecords mode thresholds hoids)
      (Reference.describes_ofRecords mode thresholds hoids)
  simp only [Reference.detect_ofRecords] at hdetect
  exact (Intersection.stoppable_extract limits frequencies members).both hdetect
    fun intersections patterns =>
      (⟨intersections, patterns, Pattern.reductionMetric patterns⟩ : Mined)

end Mined
end RoleMining
