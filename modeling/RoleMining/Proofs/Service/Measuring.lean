import RoleMining.Proofs.Service.Faults
import RoleMining.Service.Endpoint

/-!
# Measuring what a request brings

Settings are checked by measuring their numbers. An integer beyond doubles cannot be measured, and
it fails the check of all settings, whatever else is wrong with them. Of a population no weight may
be infinite.
-/
namespace RoleMining

variable {α β : Type}

/-! ### Settings -/

/-- An integer beyond the range of doubles. -/
def Json.Unmeasurable (value : Json) : Prop := ∃ n : ℤ, value = .int n ∧ Binary64.ofInt? n = none

/-- A step that fails when one of some values cannot be measured, and for no other reason. -/
structure Gauges (values : List Json) (x : Except Failure α) : Prop where
  fails : (∃ value ∈ values, value.Unmeasurable) → x = .error .numberTooLarge
  succeeds : (∀ value ∈ values, ¬ value.Unmeasurable) → ∃ a, x = .ok a

namespace Gauges

variable {values others : List Json} {x : Except Failure α} {f : α → Except Failure β}

theorem ok (a : α) : Gauges [] (.ok a) where
  fails := fun ⟨_, hvalue, _⟩ => absurd hvalue List.not_mem_nil
  succeeds _ := ⟨a, rfl⟩

theorem bind (hx : Gauges values x) (hf : ∀ a, Gauges others (f a)) :
    Gauges (values ++ others) (x >>= f) := by
  by_cases hvalues : ∃ value ∈ values, value.Unmeasurable
  · have hfails : x >>= f = .error .numberTooLarge := by
      rw [hx.fails hvalues]
      rfl
    obtain ⟨value, hvalue, hlarge⟩ := hvalues
    exact ⟨fun _ => hfails, fun h => absurd hlarge (h value (List.mem_append_left others hvalue))⟩
  · obtain ⟨a, rfl⟩ := hx.succeeds fun value hvalue hlarge => hvalues ⟨value, hvalue, hlarge⟩
    refine ⟨?_, fun h => (hf a).succeeds fun value hvalue =>
      h value (List.mem_append_right values hvalue)⟩
    rintro ⟨value, hvalue, hlarge⟩
    rcases List.mem_append.1 hvalue with hvalue | hvalue
    · exact absurd ⟨value, hvalue, hlarge⟩ hvalues
    · exact (hf a).fails ⟨value, hvalue, hlarge⟩

theorem bind_ok (hx : Gauges values x) (hf : ∀ a, ∃ b, f a = .ok b) : Gauges values (x >>= f) := by
  rw [← List.append_nil values]
  refine hx.bind fun a => ?_
  obtain ⟨b, hb⟩ := hf a
  exact hb ▸ ok b

theorem congr (h : Gauges values x) (hvalues : ∀ value, value ∈ values ↔ value ∈ others) :
    Gauges others x where
  fails := fun ⟨value, hvalue, hlarge⟩ => h.fails ⟨value, (hvalues value).2 hvalue, hlarge⟩
  succeeds hnone := h.succeeds fun value hvalue => hnone value ((hvalues value).1 hvalue)

theorem breaks_iff (h : Gauges values x) : Breaks x ↔ ∃ value ∈ values, value.Unmeasurable := by
  constructor
  · intro hbreaks
    by_contra hnone
    push Not at hnone
    obtain ⟨a, rfl⟩ := h.succeeds hnone
    exact not_breaks_ok a hbreaks
  · intro hlarge
    rw [h.fails hlarge]
    exact breaks_error_iff.2 rfl

end Gauges

theorem Json.gauges_measure (value : Json) : Gauges [value] value.measure := by
  cases value with
  | int n =>
    cases hn : Binary64.ofInt? n with
    | none =>
      have hlarge : (Json.int n).measure = .error .numberTooLarge := by simp [measure, hn]
      exact ⟨fun _ => hlarge, fun h => absurd ⟨n, rfl, hn⟩ (h _ List.mem_cons_self)⟩
    | some x =>
      have hmeasure : (Json.int n).measure = .ok (some (.int n)) := by simp [measure, hn]
      refine ⟨?_, fun _ => ⟨_, hmeasure⟩⟩
      rintro ⟨value, hvalue, m, rfl, hm⟩
      obtain rfl := Json.int.inj (List.mem_singleton.1 hvalue)
      cases hn.symm.trans hm
  | _ =>
    refine ⟨?_, fun _ => ⟨_, rfl⟩⟩
    rintro ⟨value, hvalue, n, rfl, -⟩
    cases List.mem_singleton.1 hvalue

/-- A field is measured once, and every number, or none, is then judged. -/
theorem Json.gauges_measure_bind {judge : Option Number → Except Failure α} (value : Json)
    (hnone : ∃ a, judge none = .ok a) (hsome : ∀ number, ∃ a, judge (some number) = .ok a) :
    Gauges [value] (value.measure >>= judge) :=
  value.gauges_measure.bind_ok fun measured => by
    cases measured with
    | none => exact hnone
    | some number => exact hsome number

theorem Bounds.gauges_complaints (b : Bounds) (field : String) (value : Json) :
    Gauges [value] (b.complaints field value) := by
  unfold complaints
  split
  next =>
    refine ⟨?_, fun _ => ⟨_, rfl⟩⟩
    rintro ⟨value, hvalue, n, rfl, -⟩
    cases List.mem_singleton.1 hvalue
  next => exact Json.gauges_measure_bind _ ⟨_, rfl⟩ fun _ => ⟨_, rfl⟩

namespace Session

theorem gauges_similarityComplaints (value : Json) :
    Gauges [value] (similarityComplaints value) := by
  refine Json.gauges_measure_bind value ⟨_, rfl⟩ fun number => ?_
  dsimp only
  split
  next => exact ⟨_, rfl⟩
  next => split <;> exact ⟨_, rfl⟩

theorem gauges_maxClustersComplaints (value : Json) :
    Gauges [value] (maxClustersComplaints value) := by
  refine Json.gauges_measure_bind value ⟨_, rfl⟩ fun number => ?_
  dsimp only
  split
  next => exact ⟨_, rfl⟩
  next => split <;> exact ⟨_, rfl⟩

/-- The fields of a session that have to be numbers. -/
def measured (s : Session) : List Json :=
  [s.similarityThreshold, s.minSharedProperties, s.minMembers, s.minProperties, s.resolution,
    s.minOverlapCoverage, s.maxClustersPerMember]

theorem gauges_complaints (s : Session) : Gauges s.measured s.complaints :=
  (gauges_similarityComplaints _).bind fun _ =>
  (sharedBounds.gauges_complaints _ _).bind fun _ =>
  (membersBounds.gauges_complaints _ _).bind fun _ =>
  (propertiesBounds.gauges_complaints _ _).bind fun _ =>
  (resolutionBounds.gauges_complaints _ _).bind fun _ =>
  (coverageBounds.gauges_complaints _ _).bind fun _ =>
  (gauges_maxClustersComplaints _).bind fun _ => .ok _

end Session

namespace Detection

/-- The fields of the detection thresholds, all of which have to be numbers. -/
def measured (d : Detection) : List Json :=
  [d.minFrequency, d.maxFrequency, d.minIntersection, d.minSupport]

theorem gauges_complaints (d : Detection) : Gauges d.measured d.complaints := by
  -- the frequencies are measured once more, to be compared
  have htwice : Gauges [d.minFrequency, d.maxFrequency, d.minFrequency, d.maxFrequency,
      d.minIntersection, d.minSupport] d.complaints :=
    (frequencyBounds.gauges_complaints _ _).bind fun _ =>
    (frequencyBounds.gauges_complaints _ _).bind fun _ =>
    d.minFrequency.gauges_measure.bind fun _ =>
    d.maxFrequency.gauges_measure.bind fun _ =>
    (intersectionBounds.gauges_complaints _ _).bind fun _ =>
    (supportBounds.gauges_complaints _ _).bind fun _ => .ok _
  refine htwice.congr fun value => ?_
  simp only [measured, List.mem_cons]
  tauto

end Detection

namespace Runtime

theorem gauges_positiveComplaints (field : String) (value : Json) :
    Gauges [value] (positiveComplaints field value) := by
  refine Json.gauges_measure_bind value ⟨_, rfl⟩ fun number => ?_
  dsimp only
  split <;> exact ⟨_, rfl⟩

/-- The runtime fields that have to be numbers. -/
def measured (r : Runtime) : List Json := [r.numWorkers, r.progressInterval]

theorem gauges_complaints (r : Runtime) : Gauges r.measured r.complaints :=
  (gauges_positiveComplaints _ _).bind fun _ =>
  (gauges_positiveComplaints _ _).bind fun _ => .ok _

end Runtime

namespace Settings

variable {s t : Settings} {overrides : Json}

/-- The fields that have to be numbers. -/
def measured (s : Settings) : List Json :=
  s.session.measured ++ (s.detection.measured ++ s.runtime.measured)

theorem gauges_complaints (s : Settings) : Gauges s.measured s.complaints :=
  s.session.gauges_complaints.bind fun _ =>
  s.detection.gauges_complaints.bind fun _ =>
  s.runtime.gauges_complaints.bind_ok fun _ => ⟨_, rfl⟩

theorem ensureValid_eq_ok_iff : s.ensureValid = .ok t ↔ s.complaints = .ok [] ∧ t = s := by
  unfold ensureValid ensureNone
  cases s.complaints with
  | error failure => simp [bind, Except.bind]
  | ok found => cases found <;> simp [bind, Except.bind, pure, Except.pure, throw, throwThe,
      MonadExceptOf.throw, eq_comm]

/-- Complaints are bad values. -/
theorem breaks_ensureValid_iff : Breaks s.ensureValid ↔ ∃ value ∈ s.measured, value.Unmeasurable := by
  rw [← s.gauges_complaints.breaks_iff]
  unfold ensureValid ensureNone
  cases s.complaints with
  | error failure => exact breaks_error_iff.trans breaks_error_iff.symm
  | ok found =>
    refine iff_of_false ?_ (not_breaks_ok found)
    cases found with
    | nil => exact not_breaks_ok s
    | cons => exact not_breaks_error rfl

/-- What overrides break a service: they are not read, or they set something that is not
measured. -/
inductive Broken (overrides : Json) : Prop
  | misread (h : Sheet.Misread overrides)
  | unmeasurable {sheet : Sheet} (hsheet : overridden overrides = .ok sheet)
    (h : ∃ value ∈ (ofSheet sheet).measured, value.Unmeasurable)

theorem breaks_overridden_iff : Breaks (overridden overrides) ↔ Sheet.Misread overrides :=
  (breaks_bind_ok_iff fun _ => ⟨_, rfl⟩).trans Sheet.breaks_ofJson_iff

/-- Overrides that are read and then checked in some way break exactly if they are broken. -/
theorem breaks_overridden_bind_iff {check : Sheet → Except Failure α}
    (hcheck : ∀ sheet, overridden overrides = .ok sheet →
      (Breaks (check sheet) ↔ ∃ value ∈ (ofSheet sheet).measured, value.Unmeasurable)) :
    Breaks (overridden overrides >>= check) ↔ Broken overrides := by
  rw [breaks_bind_iff, breaks_overridden_iff]
  constructor
  · rintro (h | ⟨sheet, hsheet, h⟩)
    · exact .misread h
    · exact .unmeasurable hsheet ((hcheck sheet hsheet).1 h)
  · intro h
    cases h with
    | misread h => exact .inl h
    | unmeasurable hsheet h => exact .inr ⟨_, hsheet, (hcheck _ hsheet).2 h⟩

theorem breaks_overridden_ensureValid_iff :
    Breaks (do (ofSheet (← overridden overrides)).ensureValid) ↔ Broken overrides :=
  breaks_overridden_bind_iff fun _ _ => breaks_ensureValid_iff

theorem ensureValid_defaults : defaults.ensureValid = .ok defaults :=
  ensureValid_eq_ok_iff.2 ⟨by decide +kernel, rfl⟩

/-- Without overrides nothing is broken. -/
theorem not_broken_empty : ¬ Broken (.object []) := by
  rw [← breaks_overridden_ensureValid_iff]
  have hvalid : (ofSheet (defaults.sheet.merge {})).complaints = .ok [] := by decide +kernel
  have hread : overridden (.object []) = .ok (defaults.sheet.merge {}) := rfl
  rw [hread]
  change ¬ Breaks (ofSheet (defaults.sheet.merge {})).ensureValid
  rw [ensureValid_eq_ok_iff.2 ⟨hvalid, rfl⟩]
  exact not_breaks_ok _

end Settings

/-! ### Populations -/

namespace Population

variable {index : ℕ} {entry payload : Json}

theorem toInteger_eq_numberTooLarge_iff {value : Json} :
    value.toInteger = .error .numberTooLarge ↔ ∃ negative, value = .float (.infinite negative) := by
  cases value with
  | float x => cases x <;> simp [Json.toInteger]
  | str s => cases h : Text.integer? s <;> simp [Json.toInteger, h]
  | _ => simp [Json.toInteger]

theorem breaks_entryWeight_iff : Breaks (entryWeight index entry) ↔
    ∃ negative, entry.field? "weight" = some (.float (.infinite negative)) := by
  have hlarge : ((entry.field? "weight").getD (.int 1)).toInteger = .error .numberTooLarge ↔
      ∃ negative, entry.field? "weight" = some (.float (.infinite negative)) := by
    rw [toInteger_eq_numberTooLarge_iff]
    cases entry.field? "weight" <;> simp
  rw [← hlarge]
  unfold entryWeight
  split
  next n hn => exact iff_of_false (not_breaks_ok n) (by simp [hn])
  next hn => exact iff_of_true (breaks_error_iff.2 rfl) hn
  next failure hne hn =>
    refine iff_of_false (not_breaks_error rfl) ?_
    rw [hn]
    simpa using hne

/-- An entry that can be read up to its weight, which is infinite. -/
structure Overweight (index : ℕ) (entry : Json) : Prop where
  oid : ∃ oid, entry.field? "oid" = some oid
  roles : ∃ roles, entryRoles index entry = .ok roles
  weight : ∃ negative, entry.field? "weight" = some (.float (.infinite negative))

theorem not_breaks_entryRoles : ¬ Breaks (entryRoles index entry) := by
  unfold entryRoles
  dsimp only
  split
  next => exact not_breaks_ok _
  next =>
    split
    next => exact not_breaks_ok []
    next => exact not_breaks_error rfl

theorem not_breaks_make (oid : String) (properties : IdSet) (weight : ℤ) :
    ¬ Breaks (Record.make oid properties weight) := by
  unfold Record.make
  split
  next => exact not_breaks_ok _
  next => exact not_breaks_error rfl

theorem breaks_entryRecord_iff : Breaks (entryRecord index entry) ↔ Overweight index entry := by
  unfold entryRecord
  cases hoid : entry.field? "oid" with
  | none =>
    refine iff_of_false (not_breaks_error rfl) fun h => ?_
    obtain ⟨oid, hsome⟩ := h.oid
    cases hoid.symm.trans hsome
  | some oid =>
    dsimp only
    rw [breaks_bind_iff, or_iff_right not_breaks_entryRoles]
    have hweight (roles : List Json) : Breaks (do
        let weight ← entryWeight index entry
        Record.make oid.shown (.ofList (roles.map Json.shown)) weight) ↔
        ∃ negative, entry.field? "weight" = some (.float (.infinite negative)) := by
      rw [breaks_bind_iff, breaks_entryWeight_iff]
      refine or_iff_left ?_
      rintro ⟨weight, -, h⟩
      exact not_breaks_make _ _ _ h
    constructor
    · rintro ⟨roles, hroles, h⟩
      exact ⟨⟨oid, hoid⟩, ⟨roles, hroles⟩, (hweight roles).1 h⟩
    · rintro ⟨-, ⟨roles, hroles⟩, h⟩
      exact ⟨roles, hroles, (hweight roles).2 h⟩

/-- What breaks the reader of a population: a list in which an entry is overweight and all before
it are records. -/
inductive Misweighed : Json → Prop
  | entries {entries : List Json} (h : StopsAt (fun e => ∃ record, entryRecord e.2 e.1 = .ok record)
      (fun e => Overweight e.2 e.1) entries.zipIdx) : Misweighed (.list entries)

theorem breaks_ofPayload_iff : Breaks (ofPayload payload) ↔ Misweighed payload := by
  unfold ofPayload
  split
  next => exact iff_of_false (not_breaks_error rfl) fun h => nomatch h
  next entries =>
    simp only [breaks_mapM_iff, breaks_entryRecord_iff]
    refine ⟨.entries, fun h => ?_⟩
    cases h with
    | entries h => exact h
  next hlist =>
    refine iff_of_false (not_breaks_error rfl) fun h => ?_
    cases h with
    | entries => exact hlist _ rfl

end Population
end RoleMining
