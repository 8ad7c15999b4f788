import RoleMining.Proofs.Detection.Closure
import RoleMining.Proofs.Extraction

/-!
# Stopping only truncates

A pass that is stopped has seen a first part of what it would have seen, so its discoveries are a
first part of all discoveries. A sorted answer made from them is the full answer with some items
left out. For patterns this needs that supports are closed: no candidate after the stop could have
taken a body from the support it had. A run that is not marked as aborted has left out nothing.
-/
namespace RoleMining

variable {α : Type} {qualifies : IdSet → Bool} {sets : List IdSet} {run : Run α}

/-- A strictly ordered part of a strictly ordered list is a sublist of it. -/
theorem sublist_of_pairwise_of_subset {β : Type} {r : β → β → Prop} (hr : ∀ a b, r a b → ¬ r b a)
    {xs ys : List β} (hx : xs.Pairwise r) (hy : ys.Pairwise r) (h : ∀ a ∈ xs, a ∈ ys) :
    xs.Sublist ys := by
  classical
  have hfilter : xs = ys.filter (fun a => decide (a ∈ xs)) := by
    refine eq_of_pairwise_of_mem_iff hr hx (hy.filter _) fun a => ?_
    rw [List.mem_filter, decide_eq_true_eq]
    exact ⟨fun ha => ⟨h a ha, ha⟩, fun ha => ha.2⟩
  rw [hfilter]
  exact List.filter_sublist

/-! ### Discoveries -/

namespace Discoveries

theorem isPrefix_recordNew (known : Discoveries) (K : IdSet) (provenance : Provenance) :
    known.entries <+: (known.recordNew K provenance).entries := by
  unfold Ledger.recordNew Ledger.record
  split_ifs
  · exact List.prefix_rfl
  · exact List.prefix_append _ _

theorem isPrefix_recordAll (provenance : Provenance) (found : List IdSet) (known : Discoveries) :
    known.entries <+: (recordAll provenance found known).entries := by
  induction found generalizing known with
  | nil => exact List.prefix_rfl
  | cons K found ih => exact (isPrefix_recordNew known K provenance).trans (ih _)

/-- What is recorded of a first part is a first part of what is recorded. -/
theorem recordAll_isPrefix {provenance : Provenance} {found found' : List IdSet}
    (h : found <+: found') (known : Discoveries) :
    (recordAll provenance found known).entries <+: (recordAll provenance found' known).entries := by
  obtain ⟨rest, rfl⟩ := h
  have hsplit : recordAll provenance (found ++ rest) known =
      recordAll provenance rest (recordAll provenance found known) := List.foldl_append
  rw [hsplit]
  exact isPrefix_recordAll provenance rest _

end Discoveries

theorem Sweep.pairwise_seen_isPrefix (qualifies : IdSet → Bool) (run : Run α)
    (sets : List IdSet) :
    (pairwise qualifies run sets).seen <+: shared qualifies (pairs sets) := by
  obtain ⟨done, hinitial, hseen, -⟩ :=
    walk_seen qualifies (pairs sets).length run 0 [] (pairs sets)
  have hdone : (pairwise qualifies run sets).seen = shared qualifies done := hseen
  rw [hdone]
  exact (hinitial.map _).filter _

/-- All that two uninterrupted passes record. -/
def allDiscoveries (qualifies : IdSet → Bool) (sets : List IdSet) : Discoveries :=
  .recordAll .inner (innerLevel qualifies sets)
    (.recordAll .outer (outerLevel qualifies sets) .empty)

theorem collectIntersections_isPrefix (qualifies : IdSet → Bool) (sets : List IdSet)
    (run : Run α) : (collectIntersections qualifies sets run).2.entries <+:
      (allDiscoveries qualifies sets).entries := by
  have houter := Sweep.pairwise_seen_isPrefix qualifies run sets
  unfold collectIntersections
  dsimp only
  split
  next =>
    apply List.IsPrefix.trans _ (Discoveries.isPrefix_recordAll _ _ _)
    exact Discoveries.recordAll_isPrefix houter .empty
  next hrunning =>
    -- the inner pass starts from the whole outer level, so only its own end may be missing
    have hseen : (Sweep.pairwise qualifies run sets).seen = outerLevel qualifies sets := by
      apply Sweep.pairwise_seen
      rw [← Sweep.pairwise_stopped]
      exact eq_false_of_ne_true hrunning
    rw [hseen]
    exact Discoveries.recordAll_isPrefix (Sweep.pairwise_seen_isPrefix _ _ _) _

theorem collectIntersections_eq_allDiscoveries
    (h : (collectIntersections qualifies sets run).1.cancelled = false) :
    (collectIntersections qualifies sets run).2 = allDiscoveries qualifies sets :=
  collectIntersections_eq_levels Prod.mk.eta.symm h

/-! ### Shared sets -/

namespace Intersection

variable {limits : Limits} {frequencies : Frequencies} {members : List Record}

/-- All shared sets of the members, in no order. -/
def allShared (limits : Limits) (frequencies : Frequencies) (members : List Record) :
    List Intersection :=
  (allDiscoveries (reaches (fun _ => 1) limits.minSize)
    (usableSets limits frequencies members)).entries.map fun e => weigh members e.1 e.2

theorem mem_allShared_of_mem_extract {i : Intersection}
    (hi : i ∈ (extract limits frequencies members run).2) :
    i ∈ allShared limits frequencies members := by
  have hlisted := List.mem_mergeSort.1 hi
  exact ((collectIntersections_isPrefix _ _ run).map _).subset hlisted

theorem mem_extract_iff_mem_allShared
    (h : (extract limits frequencies members run).1.cancelled = false) {i : Intersection} :
    i ∈ (extract limits frequencies members run).2 ↔ i ∈ allShared limits frequencies members := by
  have hfound := collectIntersections_eq_allDiscoveries h
  unfold extract allShared
  rw [List.mem_mergeSort, hfound]

theorem extract_sublist {full : Run α}
    (hfull : (extract limits frequencies members full).1.cancelled = false) :
    (extract limits frequencies members run).2.Sublist
      (extract limits frequencies members full).2 := by
  refine sublist_of_pairwise_of_subset (fun _ _ => Precedes.asymm)
    (pairwise_extract Prod.mk.eta.symm) (pairwise_extract Prod.mk.eta.symm) fun i hi => ?_
  exact (mem_extract_iff_mem_allShared hfull).2 (mem_allShared_of_mem_extract hi)

/-- Extractions that were not stopped give one answer. -/
theorem extract_eq {β : Type} {full : Run β}
    (h : (extract limits frequencies members run).1.cancelled = false)
    (hfull : (extract limits frequencies members full).1.cancelled = false) :
    (extract limits frequencies members run).2 = (extract limits frequencies members full).2 := by
  refine eq_of_pairwise_of_mem_iff (fun _ _ => Precedes.asymm)
    (pairwise_extract Prod.mk.eta.symm) (pairwise_extract Prod.mk.eta.symm) fun i => ?_
  rw [mem_extract_iff_mem_allShared h, mem_extract_iff_mem_allShared hfull]

end Intersection

/-! ### Patterns -/

namespace Reference

variable {r : Reference} {related : String → String → Prop} {mode : Mode}
variable {after : Run α} {patterns : List Pattern}

variable (hr : Chunk.Consistent r.bodyWeight r.supportWeight r.chunks)
include hr

/-- A detection gives numbers to what the exploration found. -/
theorem explored_of_detect (hne : r.chunks ≠ [])
    (h : Pattern.detect mode r.thresholds r.chunks run = .ok (after, patterns)) :
    after = (r.explore run).1 ∧
      ∃ listed, r.scored mode (r.explore run).2 = .ok listed ∧
        patterns = listed.mergeSort Pattern.ordered := by
  rw [detect_eq hr hne] at h
  cases hscored : r.scored mode (r.explore run).2 with
  | error => simp [hscored, Except.map] at h
  | ok listed =>
    rw [hscored] at h
    cases h
    exact ⟨rfl, listed, rfl, rfl⟩

theorem cancelled_of_not_aborted (hne : r.chunks ≠ [])
    (h : Pattern.detect mode r.thresholds r.chunks run = .ok (after, patterns))
    (hafter : after.aborted = false) : after.cancelled = false := by
  obtain ⟨rfl, -⟩ := explored_of_detect hr hne h
  exact (settles_explore run).told.running hafter

/-- Detections that were not stopped give one answer. -/
theorem detect_eq_of_uncancelled {β : Type} {full reached : Run β} {listed : List Pattern}
    (h : Pattern.detect mode r.thresholds r.chunks run = .ok (after, patterns))
    (hafter : after.cancelled = false)
    (hfull : Pattern.detect mode r.thresholds r.chunks full = .ok (reached, listed))
    (hreached : reached.cancelled = false) : patterns = listed := by
  refine eq_of_pairwise_of_mem_iff (fun _ _ => Precedes.asymm) (pairwise_detect hr h)
    (pairwise_detect hr hfull) fun p => ?_
  rw [mem_detect_iff hr h hafter, mem_detect_iff hr hfull hreached]

variable (hdescribes : Chunk.Describes related r.chunks)
include hdescribes

/-- Whenever a detection is stopped, what it lists are patterns. -/
theorem isPattern_of_mem_detect
    (h : Pattern.detect mode r.thresholds r.chunks run = .ok (after, patterns)) {p : Pattern}
    (hp : p ∈ patterns) : r.IsPattern mode p := by
  by_cases hempty : r.chunks = []
  · rw [hempty] at h
    cases h
    cases hp
  · obtain ⟨-, listed, hlisted, rfl⟩ := explored_of_detect hr hempty h
    obtain ⟨⟨B, S⟩, hentry, hof⟩ := (mem_of_mapM_eq_ok hlisted).1 (List.mem_mergeSort.1 hp)
    obtain ⟨rfl, rfl, -⟩ := Pattern.ofFinding_eq_ok_iff.1 hof
    have hsupports := supports_of_explore hr (Ledger.mem_entries_iff.1 hentry)
    exact (isPattern_iff hr (hsupports.isFinding hdescribes)).2 hof

/-- If an uncancelled detection returns, so does every other. -/
theorem exists_detect_of_detect {β : Type}
    (h : Pattern.detect mode r.thresholds r.chunks run = .ok (after, patterns))
    (hafter : after.cancelled = false) (mode' : Mode) (other : Run β) :
    ∃ reached listed, Pattern.detect mode' r.thresholds r.chunks other = .ok (reached, listed) :=
  exists_detect hr mode' other fun _ _ hS => isSome_score_of_detect hr h hafter hdescribes hS

/-- A detection that was stopped lists some of the patterns; one that was not lists them all. -/
theorem detect_truncates {full reached : Run α} {listed : List Pattern} (hfull : full.Unhindered)
    (h : Pattern.detect mode r.thresholds r.chunks full = .ok (reached, listed)) (run : Run α) :
    ∃ after patterns, Pattern.detect mode r.thresholds r.chunks run = .ok (after, patterns) ∧
      patterns.Sublist listed ∧ (after.aborted = false → patterns = listed) := by
  have hreached := cancelled_detect hr hfull h
  obtain ⟨after, patterns, hrun⟩ := exists_detect_of_detect hr hdescribes h hreached mode run
  refine ⟨after, patterns, hrun, ?_, fun hafter => ?_⟩
  · refine sublist_of_pairwise_of_subset (fun _ _ => Precedes.asymm) (pairwise_detect hr hrun)
      (pairwise_detect hr h) fun p hp => ?_
    exact (mem_detect_iff hr h hreached).2 (isPattern_of_mem_detect hr hdescribes hrun hp)
  · by_cases hempty : r.chunks = []
    · rw [hempty] at h hrun
      cases h
      cases hrun
      rfl
    · have hrunning := cancelled_of_not_aborted hr hempty hrun hafter
      exact detect_eq_of_uncancelled hr hrun hrunning h hreached

/-- A detection that has not marked the run lists what every uninterrupted one lists. -/
theorem exists_detect_of_not_aborted {full : Run α} (hfull : full.Unhindered)
    (h : Pattern.detect mode r.thresholds r.chunks run = .ok (after, patterns))
    (hafter : after.aborted = false) :
    ∃ reached, Pattern.detect mode r.thresholds r.chunks full = .ok (reached, patterns) := by
  by_cases hempty : r.chunks = []
  · rw [hempty] at h ⊢
    cases h
    exact ⟨full, rfl⟩
  · have hrunning := cancelled_of_not_aborted hr hempty h hafter
    obtain ⟨reached, listed, hreached⟩ :=
      exists_detect_of_detect hr hdescribes h hrunning mode full
    have hlisted := detect_eq_of_uncancelled hr h hrunning hreached
      (cancelled_detect hr hfull hreached)
    exact ⟨reached, by rw [hlisted, hreached]⟩

/-- When an uninterrupted detection fails, a detection that was stopped may answer, but then it has
marked the run, and what it lists are patterns all the same. -/
theorem detect_stopped_of_error {full : Run α} (hfull : full.Unhindered) {failure : Failure}
    (hfails : Pattern.detect mode r.thresholds r.chunks full = .error failure)
    (h : Pattern.detect mode r.thresholds r.chunks run = .ok (after, patterns)) :
    after.aborted = true ∧ ∀ p ∈ patterns, r.IsPattern mode p := by
  refine ⟨?_, fun p hp => isPattern_of_mem_detect hr hdescribes h hp⟩
  by_contra hcomplete
  obtain ⟨reached, hlisted⟩ :=
    exists_detect_of_not_aborted hr hdescribes hfull h (eq_false_of_ne_true hcomplete)
  cases hfails.symm.trans hlisted

/-- A detection that was stopped fails only as the uninterrupted one does. -/
theorem detect_eq_error_of_stopped {full : Run α} (hfull : full.Unhindered) {failure : Failure}
    (h : Pattern.detect mode r.thresholds r.chunks run = .error failure) :
    Pattern.detect mode r.thresholds r.chunks full = .error failure := by
  cases hof : Pattern.detect mode r.thresholds r.chunks full with
  | ok result =>
    obtain ⟨after, patterns, hanswers, -⟩ := detect_truncates hr hdescribes hfull hof run
    cases h.symm.trans hanswers
  | error e => rw [(detect_eq_error hr hof).1, (detect_eq_error hr h).1]

end Reference

/-- A run that is stopped truncates what is searched for and distorts nothing, at whatever call its
reporter says no, and also if it was cancelled before. Against a run that nothing hinders, the two
passes record a first part, an extraction lists some of the shared sets, and a detection among
chunks of records lists some of the patterns, each item just as it is in full. When the run is not
marked as aborted, nothing is left out. The detection that nothing hinders returns whenever the
scores are in the range of doubles, and fails on no other ground; then a detection that was stopped
may answer, on a run that it has marked, and lists nothing but patterns, or fails in the same way.
-/
theorem stopped_run_truncates {full : Run α} (hfull : full.Unhindered) (run : Run α) :
    (∀ (qualifies : IdSet → Bool) (sets : List IdSet),
      (collectIntersections qualifies sets run).2.entries <+:
        (collectIntersections qualifies sets full).2.entries ∧
      ((collectIntersections qualifies sets run).1.aborted = false →
        (collectIntersections qualifies sets run).2 =
          (collectIntersections qualifies sets full).2)) ∧
    (∀ (limits : Intersection.Limits) (frequencies : Frequencies) (members : List Record),
      (Intersection.extract limits frequencies members run).2.Sublist
        (Intersection.extract limits frequencies members full).2 ∧
      ((Intersection.extract limits frequencies members run).1.aborted = false →
        (Intersection.extract limits frequencies members run).2 =
          (Intersection.extract limits frequencies members full).2)) ∧
    (∀ records : List Record, (records.map (·.oid)).Nodup →
      ∀ chunks ∈ [Chunk.ofRoles records, Chunk.ofUsers records],
      ∀ (mode : Mode) (thresholds : Thresholds),
      (∀ reached patterns,
        Pattern.detect mode thresholds chunks full = .ok (reached, patterns) →
        ∃ after kept, Pattern.detect mode thresholds chunks run = .ok (after, kept) ∧
          kept.Sublist patterns ∧ (after.aborted = false → kept = patterns)) ∧
      ∀ after kept, Pattern.detect mode thresholds chunks run = .ok (after, kept) →
        after.aborted = false →
        ∃ reached, Pattern.detect mode thresholds chunks full = .ok (reached, kept)) ∧
    ∀ records : List Record, (records.map (·.oid)).Nodup →
      ∀ (axis mode : Mode) (thresholds : Thresholds),
      let r := Reference.ofRecords axis records thresholds
      ((∀ S B, r.Supports S B →
          (Binary64.ofInt? (B.weighted r.bodyWeight * S.weighted r.supportWeight)).isSome = true) →
        ∃ reached patterns,
          Pattern.detect mode thresholds r.chunks full = .ok (reached, patterns)) ∧
      (∀ failure, Pattern.detect mode thresholds r.chunks full = .error failure →
        failure = .numberTooLarge ∧
        ∀ after kept, Pattern.detect mode thresholds r.chunks run = .ok (after, kept) →
          after.aborted = true ∧ ∀ p ∈ kept, r.IsPattern mode p) ∧
      ∀ failure, Pattern.detect mode thresholds r.chunks run = .error failure →
        Pattern.detect mode thresholds r.chunks full = .error failure := by
  have hpasses := fun qualifies sets =>
    (unhindered_collectIntersections qualifies sets hfull).running
  refine ⟨fun qualifies sets => ⟨?_, fun hafter => ?_⟩, fun limits frequencies members => ⟨?_,
    fun hafter => ?_⟩, fun records hoids chunks hchunks mode thresholds => ?_, ?_⟩
  · rw [collectIntersections_eq_allDiscoveries (hpasses qualifies sets)]
    exact collectIntersections_isPrefix qualifies sets run
  · rw [collectIntersections_eq_allDiscoveries (hpasses qualifies sets),
      collectIntersections_eq_allDiscoveries
        ((settles_collectIntersections ..).told.running hafter)]
  · exact Intersection.extract_sublist (hpasses _ _)
  · exact Intersection.extract_eq ((settles_collectIntersections ..).told.running hafter)
      (hpasses _ _)
  · obtain ⟨axis, rfl⟩ : ∃ axis, chunks = (Reference.ofRecords axis records thresholds).chunks := by
      rcases List.mem_pair.1 hchunks with rfl | rfl
      · exact ⟨.user, rfl⟩
      · exact ⟨.role, rfl⟩
    have hr := Reference.consistent_ofRecords axis thresholds hoids
    have hdescribes := Reference.describes_ofRecords axis thresholds hoids
    constructor
    · intro reached patterns h
      cases axis <;> exact Reference.detect_truncates hr hdescribes hfull h run
    · intro after kept h hafter
      cases axis <;> exact Reference.exists_detect_of_not_aborted hr hdescribes hfull h hafter
  · intro records hoids axis mode thresholds r
    have hr := Reference.consistent_ofRecords axis thresholds hoids
    have hdescribes := Reference.describes_ofRecords axis thresholds hoids
    have hthresholds : r.thresholds = thresholds := Reference.thresholds_ofRecords ..
    rw [← hthresholds]
    exact ⟨Reference.exists_detect hr mode full, fun failure hfails =>
      ⟨(Reference.detect_eq_error hr hfails).1, fun after kept h =>
        Reference.detect_stopped_of_error hr hdescribes hfull hfails h⟩,
      fun failure h => Reference.detect_eq_error_of_stopped hr hdescribes hfull h⟩

/-- Told about every unit of work, the reporter says no at the third report. -/
def stoppedAtThird : Run Unit := { pollEvery := 1, reporter := fun calls => calls.length < 3 }

theorem stopped_run_loses_pattern : (Run.unwatched : Run Unit).Unhindered ∧
    (Pattern.twoUsers.map (·.oid)).Nodup ∧ (Pattern.hugeUser.map (·.oid)).Nodup ∧
    (∃ (after reached : Run Unit) (kept patterns : List Pattern),
      Pattern.detect .user Detection.standard (Chunk.ofRoles Pattern.twoUsers) Run.unwatched =
        .ok (reached, patterns) ∧
      Pattern.detect .user Detection.standard (Chunk.ofRoles Pattern.twoUsers) stoppedAtThird =
        .ok (after, kept) ∧
      after.aborted = true ∧ kept.Sublist patterns ∧ kept.length = 0 ∧ patterns.length = 1) ∧
    ∃ (after : Run Unit) (kept : List Pattern),
      Pattern.detect .user Detection.standard (Chunk.ofRoles Pattern.hugeUser)
        (Run.unwatched : Run Unit) = .error .numberTooLarge ∧
      Pattern.detect .user Detection.standard (Chunk.ofRoles Pattern.hugeUser) stoppedAtThird =
        .ok (after, kept) ∧ after.aborted = true := by
  have hoids : (Pattern.twoUsers.map (·.oid)).Nodup := by decide
  have hoids' : (Pattern.hugeUser.map (·.oid)).Nodup := by decide
  obtain ⟨-, -, hpatterns, hfailures⟩ :=
    stopped_run_truncates Run.unhindered_unwatched stoppedAtThird
  refine ⟨Run.unhindered_unwatched, hoids, hoids', ?_, ?_⟩
  · have hdetect := hpatterns Pattern.twoUsers hoids (Chunk.ofRoles Pattern.twoUsers) (by simp)
      .user Detection.standard
    have hfull : ((Pattern.detect .user Detection.standard (Chunk.ofRoles Pattern.twoUsers)
        (Run.unwatched : Run Unit)).toOption.map fun result => result.2.length) = some 1 := by
      decide +kernel
    have hstopped : ((Pattern.detect .user Detection.standard (Chunk.ofRoles Pattern.twoUsers)
        stoppedAtThird).toOption.map fun result => (result.1.aborted, result.2.length)) =
          some (true, 0) := by
      decide +kernel
    obtain ⟨⟨reached, patterns⟩, hreached, hone⟩ := exists_ok_of_toOption_map hfull
    obtain ⟨after, kept, hkept, hsublist, -⟩ := hdetect.1 _ _ hreached
    rw [hkept] at hstopped
    simp only [Except.toOption, Option.map_some, Option.some_inj, Prod.mk.injEq] at hstopped
    exact ⟨after, reached, kept, patterns, hreached, hkept, hstopped.1, hsublist, hstopped.2, hone⟩
  · have hnone : (Pattern.detect .user Detection.standard (Chunk.ofRoles Pattern.hugeUser)
        (Run.unwatched : Run Unit)).toOption.isNone = true := by decide +kernel
    have hstopped : ((Pattern.detect .user Detection.standard (Chunk.ofRoles Pattern.hugeUser)
        stoppedAtThird).toOption.map fun result => result.2.length) = some 0 := by decide +kernel
    obtain ⟨⟨after, kept⟩, hkept, -⟩ := exists_ok_of_toOption_map hstopped
    obtain ⟨-, hfails, -⟩ := hfailures Pattern.hugeUser hoids' .user .user Detection.standard
    cases h : Pattern.detect .user Detection.standard (Chunk.ofRoles Pattern.hugeUser)
        (Run.unwatched : Run Unit) with
    | ok result =>
      rw [h] at hnone
      cases hnone
    | error failure =>
      obtain ⟨rfl, hmarked⟩ := hfails failure h
      exact ⟨after, kept, rfl, hkept, (hmarked after kept hkept).1⟩

end RoleMining
