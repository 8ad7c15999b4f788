import RoleMining.Proofs.Settings.Checks

/-!
# Which settings are accepted

Settings without complaints are the documented ones: each field holds one of its words or a number
in its interval, and the two frequencies are in order. What is said about a field depends on that
field only. An extraction checks its three limits in words of its own and refuses the same ones.
-/
namespace RoleMining

open CheckedField

namespace Session

def checkedFields : List (CheckedField Session) :=
  [.ofWords "process_mode" (·.processMode) processModes,
   .ofWords "clustering_method" (·.clusteringMethod) clusteringMethods,
   ⟨"similarity_threshold", (·.similarityThreshold), similarityComplaints,
    (·.IsNumberIn (Set.Ioc 0 1)), finds_similarityComplaints, similarityComplaints_eq_nil_iff⟩,
   .ofBounds "min_shared_properties" (·.minSharedProperties) sharedBounds (Set.Ici 1)
    Bounds.complaints_eq_nil_iff_of_one,
   .ofBounds "min_members_count" (·.minMembers) membersBounds (Set.Ici 1)
    Bounds.complaints_eq_nil_iff_of_one,
   .ofBounds "min_properties_count" (·.minProperties) propertiesBounds (Set.Ici 1)
    Bounds.complaints_eq_nil_iff_of_one,
   .ofBounds "leiden_resolution" (·.resolution) resolutionBounds (Set.Ioc 0 5)
    Bounds.resolution_eq_nil_iff,
   .ofBounds "min_overlap_coverage" (·.minOverlapCoverage) coverageBounds (Set.Ioc 0 1)
    Bounds.coverage_eq_nil_iff,
   ⟨"max_clusters_per_member", (·.maxClustersPerMember), maxClustersComplaints,
    (·.IsNumberIn (Set.Icc 1 10)), finds_maxClustersComplaints, maxClustersComplaints_eq_nil_iff⟩]

theorem complaints_eq {s : Session} (h : AllInRange checkedFields s) :
    s.complaints = .ok (allFound checkedFields s) := by
  have hcheck : ∀ field ∈ checkedFields, field.check (field.value s) = .ok (field.found s) :=
    fun field hfield => check_eq (h field hfield)
  simp only [checkedFields, List.forall_mem_cons, ofWords, ofBounds, Except.ok.injEq] at hcheck
  obtain ⟨hmode, hmethod, hsimilarity, hshared, hmembers, hproperties, hresolution, hcoverage,
    hclusters, -⟩ := hcheck
  unfold complaints
  simp only [hmode, hmethod, hsimilarity, hshared, hmembers, hproperties, hresolution, hcoverage,
    hclusters, bind, Except.bind, pure, Except.pure]
  simp only [allFound, checkedFields, ofWords, ofBounds, List.flatMap_cons, List.flatMap_nil,
    List.append_assoc, List.append_nil]

end Session

namespace Detection

def frequencyFields : List (CheckedField Detection) :=
  [.ofBounds "min_frequency" (·.minFrequency) frequencyBounds (Set.Icc 0 1)
    Bounds.frequency_eq_nil_iff,
   .ofBounds "max_frequency" (·.maxFrequency) frequencyBounds (Set.Icc 0 1)
    Bounds.frequency_eq_nil_iff]

def sizeFields : List (CheckedField Detection) :=
  [.ofBounds "min_intersection" (·.minIntersection) intersectionBounds (Set.Ici 1)
    Bounds.complaints_eq_nil_iff_of_one,
   .ofBounds "min_support" (·.minSupport) supportBounds (Set.Ici 1)
    Bounds.complaints_eq_nil_iff_of_one]

def checkedFields : List (CheckedField Detection) := frequencyFields ++ sizeFields

/-- Between the frequencies and the sizes stands the complaint about the order of the
frequencies. -/
theorem complaints_eq {d : Detection} (h : AllInRange checkedFields d) : ∃ low high,
    d.minFrequency.measure = .ok low ∧ d.maxFrequency.measure = .ok high ∧
    d.complaints = .ok (allFound frequencyFields d ++ (orderComplaints low high ++
      allFound sizeFields d)) := by
  have hcheck : ∀ field ∈ checkedFields, field.check (field.value d) = .ok (field.found d) :=
    fun field hfield => check_eq (h field hfield)
  simp only [checkedFields, frequencyFields, sizeFields, List.cons_append, List.nil_append,
    List.forall_mem_cons, ofBounds] at hcheck
  obtain ⟨hlow, hhigh, hintersection, hsupport, -⟩ := hcheck
  simp only [AllInRange, checkedFields, frequencyFields, sizeFields, List.cons_append,
    List.nil_append, List.forall_mem_cons, ofBounds] at h
  obtain ⟨low, hlowNumber⟩ := h.1.exists_measure
  obtain ⟨high, hhighNumber⟩ := h.2.1.exists_measure
  refine ⟨low, high, hlowNumber, hhighNumber, ?_⟩
  unfold complaints
  simp only [hlow, hhigh, hlowNumber, hhighNumber, hintersection, hsupport, bind, Except.bind, pure,
    Except.pure]
  simp only [allFound, frequencyFields, sizeFields, ofBounds, List.flatMap_cons, List.flatMap_nil,
    List.append_assoc, List.append_nil]

end Detection

namespace Runtime

theorem logLevelComplaints_eq_nil_iff {value : Json} :
    logLevelComplaints value = [] ↔ Text.upper value.shown ∈ logLevels := by
  unfold logLevelComplaints
  split_ifs with hlisted
  · simpa using hlisted
  · simpa using hlisted

def checkedFields : List (CheckedField Runtime) :=
  [.ofPositive "num_workers" (·.numWorkers),
   .ofPositive "progress_interval" (·.progressInterval),
   ⟨"log_level", (·.logLevel), fun value => .ok (logLevelComplaints value),
    (Text.upper ·.shown ∈ logLevels), fun _ => finds_logLevelComplaints,
    fun _ => by rw [Except.ok.injEq, logLevelComplaints_eq_nil_iff]⟩]

theorem complaints_eq {r : Runtime} (h : AllInRange checkedFields r) :
    r.complaints = .ok (allFound checkedFields r) := by
  have hcheck : ∀ field ∈ checkedFields, field.check (field.value r) = .ok (field.found r) :=
    fun field hfield => check_eq (h field hfield)
  simp only [checkedFields, List.forall_mem_cons, ofPositive, Except.ok.injEq] at hcheck
  obtain ⟨hworkers, hinterval, hlevel, -⟩ := hcheck
  unfold complaints
  simp only [hworkers, hinterval, hlevel, bind, Except.bind, pure, Except.pure]
  simp only [allFound, checkedFields, ofPositive, List.flatMap_cons, List.flatMap_nil,
    List.append_assoc, List.append_nil]

end Runtime

/-! ### Documented settings -/

/-- What a session has to hold. -/
structure Session.Documented (s : Session) : Prop where
  mode : ∃ word ∈ processModes, s.processMode = .str word
  method : ∃ word ∈ clusteringMethods, s.clusteringMethod = .str word
  similarity : s.similarityThreshold.IsNumberIn (Set.Ioc 0 1)
  shared : s.minSharedProperties.IsNumberIn (Set.Ici 1)
  members : s.minMembers.IsNumberIn (Set.Ici 1)
  properties : s.minProperties.IsNumberIn (Set.Ici 1)
  resolution : s.resolution.IsNumberIn (Set.Ioc 0 5)
  coverage : s.minOverlapCoverage.IsNumberIn (Set.Ioc 0 1)
  clusters : s.maxClustersPerMember.IsNumberIn (Set.Icc 1 10)

/-- What an extraction has to be limited by: a size, and two frequencies in order. -/
structure Intersection.Limits.Documented (minIntersection minFrequency maxFrequency : Json) :
    Prop where
  size : minIntersection.IsNumberIn (Set.Ici 1)
  low : minFrequency.IsNumberIn (Set.Icc 0 1)
  high : maxFrequency.IsNumberIn (Set.Icc 0 1)
  ordered : ∀ low high, minFrequency.number? = some low → maxFrequency.number? = some high →
    low.place ≤ high.place

/-- What detection thresholds have to hold. -/
structure Detection.Documented (d : Detection) : Prop where
  limits : Intersection.Limits.Documented d.minIntersection d.minFrequency d.maxFrequency
  support : d.minSupport.IsNumberIn (Set.Ici 1)

/-- What the runtime fields have to hold. -/
structure Runtime.Documented (r : Runtime) : Prop where
  workers : r.numWorkers.IsNumberIn (Set.Ici 1)
  interval : r.progressInterval.IsNumberIn (Set.Ici 1)
  level : Text.upper r.logLevel.shown ∈ logLevels

structure Settings.Documented (s : Settings) : Prop where
  session : s.session.Documented
  detection : s.detection.Documented
  runtime : s.runtime.Documented

theorem Session.complaints_eq_nil_iff {s : Session} (h : AllInRange checkedFields s) :
    s.complaints = .ok [] ↔ s.Documented := by
  rw [complaints_eq h, Except.ok.injEq, allFound_eq_nil_iff h]
  simp only [checkedFields, List.forall_mem_cons, ofWords, ofBounds]
  constructor
  · rintro ⟨hmode, hmethod, hsimilarity, hshared, hmembers, hproperties, hresolution, hcoverage,
      hclusters, -⟩
    exact ⟨hmode, hmethod, hsimilarity, hshared, hmembers, hproperties, hresolution, hcoverage,
      hclusters⟩
  · intro hs
    exact ⟨hs.mode, hs.method, hs.similarity, hs.shared, hs.members, hs.properties, hs.resolution,
      hs.coverage, hs.clusters, fun _ hnone => nomatch hnone⟩

theorem Runtime.complaints_eq_nil_iff {r : Runtime} (h : AllInRange checkedFields r) :
    r.complaints = .ok [] ↔ r.Documented := by
  rw [complaints_eq h, Except.ok.injEq, allFound_eq_nil_iff h]
  simp only [checkedFields, List.forall_mem_cons, ofPositive]
  constructor
  · rintro ⟨hworkers, hinterval, hlevel, -⟩
    exact ⟨hworkers, hinterval, hlevel⟩
  · intro hr
    exact ⟨hr.workers, hr.interval, hr.level, fun _ hnone => nomatch hnone⟩

/-- Of two numbers, whether they are in order is a matter of their places. -/
theorem Detection.orderComplaints_eq_nil_iff {low high : Number} (hlow : low.isNaN = false)
    (hhigh : high.isNaN = false) :
    orderComplaints (some low) (some high) = [] ↔ low.place ≤ high.place := by
  rw [← Number.below_eq_false_iff hhigh hlow]
  unfold orderComplaints
  dsimp only
  cases high.below low <;> simp

theorem Detection.complaints_eq_nil_iff {d : Detection} (h : AllInRange checkedFields d) :
    d.complaints = .ok [] ↔ d.Documented := by
  have hfrequencies : AllInRange frequencyFields d := fun field hfield =>
    h field (List.mem_append_left _ hfield)
  have hsizes : AllInRange sizeFields d := fun field hfield =>
    h field (List.mem_append_right _ hfield)
  obtain ⟨low, high, hlow, hhigh, he⟩ := complaints_eq h
  rw [he, Except.ok.injEq, List.append_eq_nil_iff, List.append_eq_nil_iff,
    allFound_eq_nil_iff hfrequencies, allFound_eq_nil_iff hsizes]
  simp only [AllInRange, frequencyFields, List.forall_mem_cons, ofBounds] at hfrequencies
  simp only [frequencyFields, sizeFields, List.forall_mem_cons, ofBounds]
  -- both frequencies are numbers, so their order is that of the numbers measured
  have hordered (hlowIn : d.minFrequency.IsNumberIn (Set.Icc 0 1))
      (hhighIn : d.maxFrequency.IsNumberIn (Set.Icc 0 1)) : orderComplaints low high = [] ↔
        ∀ low high, d.minFrequency.number? = some low → d.maxFrequency.number? = some high →
          low.place ≤ high.place := by
    obtain ⟨lowNumber, hlowNumber, hlowNaN, -⟩ := hlowIn
    obtain ⟨highNumber, hhighNumber, hhighNaN, -⟩ := hhighIn
    obtain rfl := Except.ok.inj (hlow.symm.trans (hfrequencies.1.measure_eq hlowNumber hlowNaN))
    obtain rfl := Except.ok.inj
      (hhigh.symm.trans (hfrequencies.2.1.measure_eq hhighNumber hhighNaN))
    rw [orderComplaints_eq_nil_iff hlowNaN hhighNaN, hlowNumber, hhighNumber]
    refine ⟨?_, fun hall => hall _ _ rfl rfl⟩
    rintro hle _ _ ⟨⟩ ⟨⟩
    exact hle
  constructor
  · rintro ⟨⟨hlowIn, hhighIn, -⟩, hnone, hintersection, hsupport, -⟩
    exact ⟨⟨hintersection, hlowIn, hhighIn, (hordered hlowIn hhighIn).1 hnone⟩, hsupport⟩
  · intro hd
    have hlowIn := hd.limits.low
    have hhighIn := hd.limits.high
    exact ⟨⟨hlowIn, hhighIn, fun _ hnone => nomatch hnone⟩,
      (hordered hlowIn hhighIn).2 hd.limits.ordered, hd.limits.size, hd.support,
      fun _ hnone => nomatch hnone⟩

/-! ### Limits of an extraction -/

namespace Intersection.Limits

variable {minIntersection minFrequency maxFrequency : Json}

theorem finds_shareComplaints {name : String} {value : Json} (h : value.InRange) :
    Finds name (shareComplaints name value) := by
  refine h.finds_bind_measure fun measured => ?_
  cases measured with
  | none => exact finds_singleton rfl
  | some number =>
    dsimp only
    split_ifs
    · exact finds_nil
    · exact finds_singleton rfl

/-- Limits in range are refused with complaints, or they are a size and two frequencies in order. -/
theorem check_refuses_iff (hsize : minIntersection.InRange) (hlow : minFrequency.InRange)
    (hhigh : maxFrequency.InRange) :
    (∃ found, check minIntersection minFrequency maxFrequency = .error (.configuration found)) ↔
      ¬ Documented minIntersection minFrequency maxFrequency := by
  have hsizeFinds : Finds "min_intersection" _ := Runtime.finds_positiveComplaints hsize
  have hlowFinds : Finds "min_frequency" _ := finds_shareComplaints hlow
  have hhighFinds : Finds "max_frequency" _ := finds_shareComplaints hhigh
  have hsizeIff : Runtime.positiveComplaints "min_intersection" minIntersection = .ok [] ↔ _ :=
    Runtime.positiveComplaints_eq_nil_iff hsize
  have hlowIff : shareComplaints "min_frequency" minFrequency = .ok [] ↔ _ :=
    shareComplaints_eq_nil_iff hlow
  have hhighIff : shareComplaints "max_frequency" maxFrequency = .ok [] ↔ _ :=
    shareComplaints_eq_nil_iff hhigh
  obtain ⟨sizeFound, hsizeFound, -⟩ := hsizeFinds
  obtain ⟨lowFound, hlowFound, -⟩ := hlowFinds
  obtain ⟨highFound, hhighFound, -⟩ := hhighFinds
  rw [hsizeFound, Except.ok.injEq] at hsizeIff
  rw [hlowFound, Except.ok.injEq] at hlowIff
  rw [hhighFound, Except.ok.injEq] at hhighIff
  unfold check
  rw [hsizeFound, hlowFound, hhighFound]
  simp only [bind, Except.bind]
  by_cases hnone : sizeFound ++ lowFound ++ highFound = []
  · rw [hnone]
    simp only [List.append_eq_nil_iff, hsizeIff, hlowIff, hhighIff] at hnone
    obtain ⟨⟨hsizeIn, hlowIn⟩, hhighIn⟩ := hnone
    obtain ⟨size, hsizeNumber, -⟩ := id hsizeIn
    obtain ⟨low, hlowNumber, hlowNaN, -⟩ := id hlowIn
    obtain ⟨high, hhighNumber, hhighNaN, -⟩ := id hhighIn
    have hdocumented : Documented minIntersection minFrequency maxFrequency ↔
        high.below low = false := by
      rw [Number.below_eq_false_iff hhighNaN hlowNaN]
      refine ⟨fun hl => hl.ordered low high hlowNumber hhighNumber, fun hle => ?_⟩
      refine ⟨hsizeIn, hlowIn, hhighIn, fun low' high' hlow' hhigh' => ?_⟩
      rwa [← Option.some_inj.1 (hlowNumber.symm.trans hlow'),
        ← Option.some_inj.1 (hhighNumber.symm.trans hhigh')]
    rw [hdocumented, hsizeNumber, hlowNumber, hhighNumber]
    dsimp only
    split_ifs with hbelow
    · exact iff_of_true ⟨[.boundsReversed low high], rfl⟩ (by simp [hbelow])
    · exact iff_of_false (by rintro ⟨_, ⟨⟩⟩) (by simp [hbelow])
  · have hrefused : ¬ Documented minIntersection minFrequency maxFrequency := fun hl => hnone <| by
      rw [hsizeIff.2 hl.size, hlowIff.2 hl.low, hhighIff.2 hl.high]
      rfl
    refine iff_of_true ⟨sizeFound ++ lowFound ++ highFound, ?_⟩ hrefused
    split
    next hfound _ _ _ => exact absurd hfound hnone
    next => rfl

end Intersection.Limits

/-! ### Settings -/

namespace Settings

variable {s s' : Settings}

def checkedFields : List (CheckedField Settings) :=
  Session.checkedFields.map (within Settings.session) ++
    (Detection.checkedFields.map (within Settings.detection) ++
      Runtime.checkedFields.map (within Settings.runtime))

/-- The integers in the fields lie in the range of doubles. -/
def InRange (s : Settings) : Prop := AllInRange checkedFields s

instance decidableInRange (s : Settings) : Decidable s.InRange :=
  decidableAllInRange checkedFields s

theorem inRange_iff : s.InRange ↔ AllInRange Session.checkedFields s.session ∧
    AllInRange Detection.checkedFields s.detection ∧
    AllInRange Runtime.checkedFields s.runtime := by
  simp only [InRange, AllInRange, checkedFields, List.forall_mem_append, List.forall_mem_map]
  rfl

/-- The complaints about settings are those about each field and, between two of them, the one about
the order of the frequencies. -/
theorem complaints_eq (h : s.InRange) : ∃ low high,
    s.detection.complaints = .ok (allFound Detection.frequencyFields s.detection ++
      (Detection.orderComplaints low high ++ allFound Detection.sizeFields s.detection)) ∧
    s.complaints = .ok (allFound Session.checkedFields s.session ++
      (allFound Detection.frequencyFields s.detection ++
        (Detection.orderComplaints low high ++ allFound Detection.sizeFields s.detection)) ++
      allFound Runtime.checkedFields s.runtime) := by
  obtain ⟨hsession, hdetection, hruntime⟩ := inRange_iff.1 h
  obtain ⟨low, high, -, -, hfound⟩ := Detection.complaints_eq hdetection
  refine ⟨low, high, hfound, ?_⟩
  unfold complaints complaintsAbout
  dsimp only
  rw [Session.complaints_eq hsession, hfound, Runtime.complaints_eq hruntime]
  rfl

/-- Settings without complaints are the documented ones. -/
theorem complaints_eq_nil_iff (h : s.InRange) : s.complaints = .ok [] ↔ s.Documented := by
  obtain ⟨hsession, hdetection, hruntime⟩ := inRange_iff.1 h
  obtain ⟨low, high, hfound, hall⟩ := complaints_eq h
  have hsessionIff := Session.complaints_eq_nil_iff hsession
  have hdetectionIff := Detection.complaints_eq_nil_iff hdetection
  have hruntimeIff := Runtime.complaints_eq_nil_iff hruntime
  rw [Session.complaints_eq hsession, Except.ok.injEq] at hsessionIff
  rw [hfound, Except.ok.injEq] at hdetectionIff
  rw [Runtime.complaints_eq hruntime, Except.ok.injEq] at hruntimeIff
  rw [hall, Except.ok.injEq, List.append_eq_nil_iff, List.append_eq_nil_iff, hsessionIff,
    hdetectionIff, hruntimeIff]
  exact ⟨fun ⟨⟨hs, hd⟩, hr⟩ => ⟨hs, hd, hr⟩, fun hs => ⟨⟨hs.session, hs.detection⟩, hs.runtime⟩⟩

/-- All fields by their names. -/
def fields (s : Settings) : Fields := s.session.fields ++ s.detection.fields ++ s.runtime.fields

theorem valueAt_fields (s : Settings) :
    ∀ field ∈ checkedFields, valueAt field.name s.fields = some (field.value s) := by
  simp only [checkedFields, Session.checkedFields, Detection.checkedFields,
    Detection.frequencyFields, Detection.sizeFields, Runtime.checkedFields,
    List.forall_mem_append, List.forall_mem_map, List.forall_mem_cons, List.not_mem_nil,
    false_imp_iff, implies_true, and_true]
  exact ⟨⟨rfl, rfl, rfl, rfl, rfl, rfl, rfl, rfl, rfl⟩, ⟨⟨rfl, rfl⟩, rfl, rfl⟩, rfl, rfl, rfl⟩

theorem nodup_names : (checkedFields.map CheckedField.name).Nodup := by decide

/-- The complaint about the order of the frequencies is the only one that is about no field. -/
theorem exists_complaints (h : s.InRange) : ∃ found, s.complaints = .ok found ∧
    (∀ c ∈ found, (∃ field ∈ checkedFields, c.field? = some field.name) ∨
      ∃ low high, c = .bandReversed low high) ∧
    ∀ name, found.filter (fun c => c.field? == some name) =
      (allFound checkedFields s).filter (fun c => c.field? == some name) := by
  obtain ⟨low, high, -, hall⟩ := complaints_eq h
  have horder : ∀ c ∈ Detection.orderComplaints low high,
      ∃ low high, c = .bandReversed low high := by
    intro c hc
    unfold Detection.orderComplaints at hc
    split at hc
    · split_ifs at hc
      · exact ⟨_, _, List.mem_singleton.1 hc⟩
      · cases hc
    · cases hc
  have hfields : allFound checkedFields s = allFound Session.checkedFields s.session ++
      (allFound Detection.frequencyFields s.detection ++
        allFound Detection.sizeFields s.detection ++ allFound Runtime.checkedFields s.runtime) := by
    simp only [checkedFields, Detection.checkedFields, allFound_append, allFound_map_within]
  refine ⟨_, hall, fun c hc => ?_, fun name => ?_⟩
  · by_cases hc' : c ∈ Detection.orderComplaints low high
    · exact .inr (horder c hc')
    · refine .inl (exists_of_mem_allFound h ?_)
      rw [hfields]
      simp only [List.mem_append] at hc ⊢
      tauto
  · have hnone : (Detection.orderComplaints low high).filter (fun c => c.field? == some name) =
        [] := by
      rw [List.filter_eq_nil_iff]
      intro c hc
      obtain ⟨low', high', rfl⟩ := horder c hc
      simp [Complaint.field?]
    rw [hfields]
    simp only [List.filter_append, hnone, List.nil_append, List.append_assoc]

/-- What is said about a name depends on nothing but what stands under it. -/
theorem filter_allFound_congr (h : s.InRange) (h' : s'.InRange) {name : String}
    (hvalue : valueAt name s.fields = valueAt name s'.fields) :
    (allFound checkedFields s).filter (fun c => c.field? == some name) =
      (allFound checkedFields s').filter (fun c => c.field? == some name) := by
  by_cases hname : ∃ field ∈ checkedFields, field.name = name
  · obtain ⟨field, hfield, rfl⟩ := hname
    rw [valueAt_fields s field hfield, valueAt_fields s' field hfield, Option.some_inj] at hvalue
    rw [filter_allFound h nodup_names hfield, filter_allFound h' nodup_names hfield,
      CheckedField.found, CheckedField.found, hvalue]
  · have hne : ∀ field ∈ checkedFields, field.name ≠ name := fun field hfield he =>
      hname ⟨field, hfield, he⟩
    rw [filter_allFound_of_forall_ne h hne, filter_allFound_of_forall_ne h' hne]

/-- The validation accepts exactly the documented settings. What it says about a field depends on
that field only, but for the order of the frequencies. An extraction refuses the limits that the
validation of detection thresholds complains of, and no others. -/
theorem documented_settings_are_accepted :
    (∀ s : Settings, s.InRange → (s.complaints = .ok [] ↔ s.Documented)) ∧
    (∀ s s' : Settings, s.InRange → s'.InRange → ∃ found found',
      s.complaints = .ok found ∧ s'.complaints = .ok found' ∧
      (∀ c ∈ found, (∃ name, c.field? = some name ∧ (valueAt name s.fields).isSome) ∨
        ∃ low high, c = .bandReversed low high) ∧
      ∀ name, valueAt name s.fields = valueAt name s'.fields →
        found.filter (fun c => c.field? == some name) =
          found'.filter (fun c => c.field? == some name)) ∧
    ∀ d : Detection, AllInRange Detection.checkedFields d → d.minSupport.IsNumberIn (Set.Ici 1) →
      ((∃ refused, Intersection.Limits.check d.minIntersection d.minFrequency d.maxFrequency =
        .error (.configuration refused)) ↔ ∃ found, d.complaints = .ok found ∧ found ≠ []) := by
  refine ⟨fun s => complaints_eq_nil_iff, fun s s' h h' => ?_, fun d h hsupport => ?_⟩
  · obtain ⟨found, hfound, habout, hfilter⟩ := exists_complaints h
    obtain ⟨found', hfound', -, hfilter'⟩ := exists_complaints h'
    refine ⟨found, found', hfound, hfound', fun c hc => ?_, fun name hvalue => ?_⟩
    · refine (habout c hc).imp_left fun hfield => ?_
      obtain ⟨field, hfield, he⟩ := hfield
      exact ⟨field.name, he, by rw [valueAt_fields s field hfield]; rfl⟩
    · rw [hfilter, hfilter', filter_allFound_congr h h' hvalue]
  · have hvalues := h
    simp only [AllInRange, Detection.checkedFields, Detection.frequencyFields,
      Detection.sizeFields, List.forall_mem_append, List.forall_mem_cons, ofBounds] at hvalues
    obtain ⟨⟨hlow, hhigh, -⟩, hsize, -⟩ := hvalues
    obtain ⟨low, high, -, -, hfound⟩ := Detection.complaints_eq h
    have hnone := Detection.complaints_eq_nil_iff h
    rw [Intersection.Limits.check_refuses_iff hsize hlow hhigh]
    rw [hfound] at hnone ⊢
    simp only [Except.ok.injEq, exists_eq_left'] at hnone ⊢
    rw [ne_eq, hnone]
    exact not_congr ⟨fun hlimits => ⟨hlimits, hsupport⟩, Detection.Documented.limits⟩

/-- Settings with a word that is not listed and frequencies in the wrong order. -/
def hasty : Settings where
  session := { processMode := .str "group", similarityThreshold := .float 0.25 }
  detection := { minFrequency := .float 0.75, maxFrequency := .int 0 }
  runtime := { numWorkers := .int (10 ^ 300), logLevel := .str "debug" }

/-- The defaults are documented. Hasty settings are not, what is said about their number of workers
is what is said about the defaults with that number, and their limits are refused. -/
theorem hasty_settings_are_refused :
    hasty.InRange ∧ ({} : Settings).Documented ∧ ¬ hasty.Documented ∧
    (∃ found found', hasty.complaints = .ok found ∧
      Settings.complaints { runtime := { numWorkers := .int (10 ^ 300) } } = .ok found' ∧
      found.filter (fun c => c.field? == some "num_workers") =
        found'.filter (fun c => c.field? == some "num_workers")) ∧
    ∃ refused, Intersection.Limits.check (.int 2) (.float 0.75) (.int 0) =
      .error (.configuration refused) := by
  have hrange : hasty.InRange := by decide +kernel
  obtain ⟨haccepts, hfields, hlimits⟩ := documented_settings_are_accepted
  refine ⟨hrange, (haccepts {} (by decide +kernel)).1 (by decide +kernel), fun hdocumented => ?_,
    ?_, ?_⟩
  · have hnone := (haccepts hasty hrange).2 hdocumented
    revert hnone
    decide +kernel
  · obtain ⟨found, found', hfound, hfound', -, hsame⟩ :=
      hfields hasty { runtime := { numWorkers := .int (10 ^ 300) } } hrange (by decide +kernel)
    exact ⟨found, found', hfound, hfound', hsame "num_workers" rfl⟩
  · have hdetection : AllInRange Detection.checkedFields hasty.detection := by decide +kernel
    obtain ⟨low, high, -, -, hfound⟩ := Detection.complaints_eq hdetection
    refine (hlimits hasty.detection hdetection ⟨2, rfl, rfl, by decide⟩).2
      ⟨_, hfound, fun hnil => ?_⟩
    rw [hnil] at hfound
    revert hfound
    decide +kernel

end Settings
end RoleMining
