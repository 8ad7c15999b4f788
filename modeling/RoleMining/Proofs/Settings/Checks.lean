import Mathlib.Algebra.Order.Monoid.WithTop
import Mathlib.Order.Interval.Set.Basic
import RoleMining.Proofs.Number
import RoleMining.Proofs.Validity

/-!
# The checks of single fields

Every check of a field asks one thing: whether the value is one of a few words, or a number in an
interval of the line. The checks are worded differently, with bounds that are integers or doubles
and belong to the interval or not; what they accept is the interval. A check can always be made of a
value in range, and complains of nothing but its own field.
-/
namespace RoleMining

/-! ### Numbers in intervals -/

/-- The line of rationals between the two infinities. -/
abbrev Line := WithBot (WithTop ℚ)

namespace Number

variable {a b : Number} {x : Binary64}

theorem place_float (h : x.isFinite = true) : (Number.float x).place = (x.value : WithTop ℚ) := by
  cases x with
  | nan => cases h
  | infinite => cases h
  | finite => rfl

/-- Numbers that are no number compare with nothing; all others are not below one another exactly
when their places are in order. -/
theorem below_eq_false_iff (ha : a.isNaN = false) (hb : b.isNaN = false) :
    a.below b = false ↔ b.place ≤ a.place := by
  rw [← Bool.not_eq_true, below_iff, ← not_lt]
  simp [ha, hb]

theorem atMost_eq_false_iff (ha : a.isNaN = false) (hb : b.isNaN = false) :
    a.atMost b = false ↔ b.place < a.place := by
  rw [← Bool.not_eq_true, atMost_iff, ← not_le]
  simp [ha, hb]

theorem place_zero : (0 : Number).place = (0 : Line) := rfl

theorem place_one : (1 : Number).place = (1 : Line) := rfl

theorem place_ten : (10 : Number).place = (10 : Line) := rfl

theorem place_zero_float : (0.0 : Number).place = (0 : Line) := by
  have hvalue : (0.0 : Binary64).value = 0 := by decide +kernel
  change (Number.float 0.0).place = 0
  rw [place_float (by decide +kernel), hvalue]
  rfl

theorem place_one_float : (1.0 : Number).place = (1 : Line) := by
  have hvalue : (1.0 : Binary64).value = 1 := by decide +kernel
  change (Number.float 1.0).place = 1
  rw [place_float (by decide +kernel), hvalue]
  rfl

theorem place_five_float : (5.0 : Number).place = (5 : Line) := by
  have hvalue : (5.0 : Binary64).value = 5 := by decide +kernel
  change (Number.float 5.0).place = 5
  rw [place_float (by decide +kernel), hvalue]
  rfl

end Number

namespace Json

variable {value : Json} {I : Set Line}

/-- Whether a value is anything but an integer beyond the range of doubles. -/
def fitsDouble : Json → Bool
  | .int n => (Binary64.ofInt? n).isSome
  | _ => true

/-- Every integer in the value has to lie in the range of doubles, however deep it stands. -/
def InRange (value : Json) : Prop := value.everywhere fitsDouble = true

instance decidableInRange (value : Json) : Decidable value.InRange :=
  inferInstanceAs (Decidable (_ = true))

/-- A number in an interval of the line. A Boolean is no number, and not-a-number is none. -/
def IsNumberIn (value : Json) (I : Set Line) : Prop :=
  ∃ number, value.number? = some number ∧ number.isNaN = false ∧ number.place ∈ I

/-- A value in range is measured: it is a number, or it is known to be none. -/
theorem InRange.measure (h : value.InRange) :
    (∃ number, value.measure = .ok (some number) ∧ value.number? = some number ∧
      number.isNaN = false) ∨
    value.measure = .ok none ∧ ∀ number, value.number? = some number → number.isNaN = true := by
  cases value with
  | int n => exact .inl ⟨.int n, if_pos h, rfl, rfl⟩
  | float x =>
    cases hx : x.isNaN with
    | true =>
      refine .inr ⟨by simp [Json.measure, hx], fun number hnumber => ?_⟩
      cases hnumber
      rw [Number.isNaN_float, hx]
    | false =>
      refine .inl ⟨.float x, by simp [Json.measure, hx], rfl, ?_⟩
      rw [Number.isNaN_float, hx]
  | null => exact .inr ⟨rfl, fun _ hnumber => nomatch hnumber⟩
  | bool => exact .inr ⟨rfl, fun _ hnumber => nomatch hnumber⟩
  | str => exact .inr ⟨rfl, fun _ hnumber => nomatch hnumber⟩
  | list => exact .inr ⟨rfl, fun _ hnumber => nomatch hnumber⟩
  | object => exact .inr ⟨rfl, fun _ hnumber => nomatch hnumber⟩

theorem InRange.measure_eq (h : value.InRange) {number : Number}
    (hnumber : value.number? = some number) (hnan : number.isNaN = false) :
    value.measure = .ok (some number) := by
  rcases h.measure with ⟨number', hmeasure, hnumber', -⟩ | ⟨-, hnone⟩
  · rwa [Option.some_inj.1 (hnumber.symm.trans hnumber')]
  · rw [hnone number hnumber] at hnan
    cases hnan

theorem InRange.exists_measure (h : value.InRange) : ∃ measured, value.measure = .ok measured := by
  rcases h.measure with ⟨number, hnumber, -⟩ | ⟨hnone, -⟩
  · exact ⟨_, hnumber⟩
  · exact ⟨_, hnone⟩

/-- A check that complains of every value but the numbers in an interval. -/
theorem InRange.bind_measure_eq_nil_iff {complain : Option Number → Except Failure (List Complaint)}
    (h : value.InRange) (hnone : complain none ≠ .ok [])
    (hsome : ∀ number, number.isNaN = false →
      (complain (some number) = .ok [] ↔ number.place ∈ I)) :
    value.measure >>= complain = .ok [] ↔ value.IsNumberIn I := by
  rcases h.measure with ⟨number, hmeasure, hnumber, hnan⟩ | ⟨hmeasure, hnumber⟩
  · rw [hmeasure]
    refine (hsome number hnan).trans ⟨fun hplace => ⟨number, hnumber, hnan, hplace⟩, ?_⟩
    rintro ⟨number', hnumber', -, hplace⟩
    rwa [Option.some_inj.1 (hnumber.symm.trans hnumber')]
  · rw [hmeasure]
    refine iff_of_false hnone ?_
    rintro ⟨number, hsome, hnan, -⟩
    rw [hnumber number hsome] at hnan
    cases hnan

end Json

/-! ### The check of a field -/

namespace Bounds

variable {b : Bounds} {field : String} {value : Json}

/-- The part of the line that the bounds leave. -/
def interval (b : Bounds) : Set Line :=
  {p | (if b.lowAllowed then b.low.place ≤ p else b.low.place < p) ∧
    ∀ high, b.high? = some high → p ≤ high.place}

theorem isTooLow_eq_false_iff (hlow : b.low.isNaN = false) {number : Number}
    (hnan : number.isNaN = false) : b.isTooLow number = false ↔
      if b.lowAllowed then b.low.place ≤ number.place else b.low.place < number.place := by
  unfold isTooLow
  split_ifs
  · exact Number.below_eq_false_iff hnan hlow
  · exact Number.atMost_eq_false_iff hnan hlow

theorem isTooHigh_eq_false_iff (hhigh : ∀ high, b.high? = some high → high.isNaN = false)
    {number : Number} (hnan : number.isNaN = false) : b.isTooHigh number = false ↔
      ∀ high, b.high? = some high → number.place ≤ high.place := by
  unfold isTooHigh
  split
  next high he =>
    simp only [he, Option.some.injEq, forall_eq']
    exact Number.below_eq_false_iff (hhigh high he) hnan
  next he => simp [he]

/-- A field is within its bounds exactly when it is a number in their interval. -/
theorem complaints_eq_nil_iff (hlow : b.low.isNaN = false)
    (hhigh : ∀ high, b.high? = some high → high.isNaN = false) (h : value.InRange) :
    b.complaints field value = .ok [] ↔ value.IsNumberIn b.interval := by
  unfold complaints
  split
  next =>
    refine iff_of_false (by simp) ?_
    rintro ⟨number, hnumber, -⟩
    cases hnumber
  next =>
    refine h.bind_measure_eq_nil_iff (fun hnone => by cases hnone) fun number hnan => ?_
    have hnil : (pure ((if b.isTooLow number then
          [Complaint.tooLow field number b.low b.reason] else []) ++
        if b.isTooHigh number then
          [Complaint.tooHigh field number (b.high?.getD b.low) b.reason] else []) :
        Except Failure (List Complaint)) = .ok [] ↔
          b.isTooLow number = false ∧ b.isTooHigh number = false := by
      cases b.isTooLow number <;> cases b.isTooHigh number <;> simp [pure, Except.pure]
    exact hnil.trans (and_congr (isTooLow_eq_false_iff hlow hnan)
      (isTooHigh_eq_false_iff hhigh hnan))

/-- A field with the smallest value one. -/
theorem complaints_eq_nil_iff_of_one {reason : String} (h : value.InRange) :
    ({ low := 1, reason } : Bounds).complaints field value = .ok [] ↔
      value.IsNumberIn (Set.Ici 1) := by
  have hinterval : ({ low := 1, reason } : Bounds).interval = Set.Ici 1 := by
    ext p
    simp [interval, Number.place_one]
  rw [complaints_eq_nil_iff rfl (by simp) h, hinterval]

theorem resolution_eq_nil_iff (h : value.InRange) :
    Session.resolutionBounds.complaints field value = .ok [] ↔
      value.IsNumberIn (Set.Ioc 0 5) := by
  have hinterval : Session.resolutionBounds.interval = Set.Ioc 0 5 := by
    ext p
    simp [interval, Session.resolutionBounds, Number.place_zero_float, Number.place_five_float]
  rw [complaints_eq_nil_iff (by decide +kernel) (by rintro high ⟨⟩; decide +kernel) h, hinterval]

theorem coverage_eq_nil_iff (h : value.InRange) :
    Session.coverageBounds.complaints field value = .ok [] ↔ value.IsNumberIn (Set.Ioc 0 1) := by
  have hinterval : Session.coverageBounds.interval = Set.Ioc 0 1 := by
    ext p
    simp [interval, Session.coverageBounds, Number.place_zero_float, Number.place_one_float]
  rw [complaints_eq_nil_iff (by decide +kernel) (by rintro high ⟨⟩; decide +kernel) h, hinterval]

theorem frequency_eq_nil_iff (h : value.InRange) :
    Detection.frequencyBounds.complaints field value = .ok [] ↔
      value.IsNumberIn (Set.Icc 0 1) := by
  have hinterval : Detection.frequencyBounds.interval = Set.Icc 0 1 := by
    ext p
    simp [interval, Detection.frequencyBounds, Number.place_zero_float, Number.place_one_float]
  rw [complaints_eq_nil_iff (by decide +kernel) (by rintro high ⟨⟩; decide +kernel) h, hinterval]

end Bounds

section Checks

variable {field : String} {value : Json}

/-- A word field is one of the listed words. -/
theorem wordComplaints_eq_nil_iff {listed : List String} :
    wordComplaints field value listed = [] ↔ ∃ word ∈ listed, value = .str word := by
  refine ⟨exists_of_wordComplaints, ?_⟩
  rintro ⟨word, hword, rfl⟩
  exact if_pos (by simpa using hword)

theorem Session.similarityComplaints_eq_nil_iff (h : value.InRange) :
    similarityComplaints value = .ok [] ↔ value.IsNumberIn (Set.Ioc 0 1) := by
  refine h.bind_measure_eq_nil_iff (fun hnone => by cases hnone) fun number hnan => ?_
  have hlow := Number.atMost_eq_false_iff (b := 0) hnan rfl
  have hhigh := Number.below_eq_false_iff (a := 1) rfl hnan
  rw [Number.place_zero] at hlow
  rw [Number.place_one] at hhigh
  rw [Set.mem_Ioc, ← hlow, ← hhigh]
  dsimp only
  cases number.atMost 0 <;> cases (1 : Number).below number <;> simp [pure, Except.pure]

theorem Session.maxClustersComplaints_eq_nil_iff (h : value.InRange) :
    maxClustersComplaints value = .ok [] ↔ value.IsNumberIn (Set.Icc 1 10) := by
  refine h.bind_measure_eq_nil_iff (fun hnone => by cases hnone) fun number hnan => ?_
  have hlow := Number.below_eq_false_iff (b := 1) hnan rfl
  have hhigh := Number.below_eq_false_iff (a := 10) rfl hnan
  rw [Number.place_one] at hlow
  rw [Number.place_ten] at hhigh
  rw [Set.mem_Icc, ← hlow, ← hhigh]
  dsimp only
  cases number.below 1 <;> cases (10 : Number).below number <;> simp [pure, Except.pure]

theorem Runtime.positiveComplaints_eq_nil_iff (h : value.InRange) :
    positiveComplaints field value = .ok [] ↔ value.IsNumberIn (Set.Ici 1) := by
  refine h.bind_measure_eq_nil_iff (fun hnone => by cases hnone) fun number hnan => ?_
  have hlow := Number.below_eq_false_iff (b := 1) hnan rfl
  rw [Number.place_one] at hlow
  rw [Set.mem_Ici, ← hlow]
  dsimp only
  cases number.below 1 <;> simp [pure, Except.pure]

theorem Intersection.Limits.shareComplaints_eq_nil_iff (h : value.InRange) :
    shareComplaints field value = .ok [] ↔ value.IsNumberIn (Set.Icc 0 1) := by
  refine h.bind_measure_eq_nil_iff (fun hnone => by cases hnone) fun number hnan => ?_
  have hlow := Number.atMost_iff (a := 0) (b := number)
  have hhigh := Number.atMost_iff (a := number) (b := 1)
  rw [Number.place_zero] at hlow
  rw [Number.place_one] at hhigh
  simp only [hnan, show (0 : Number).isNaN = false from rfl,
    show (1 : Number).isNaN = false from rfl, true_and] at hlow hhigh
  rw [Set.mem_Icc, ← hlow, ← hhigh]
  dsimp only
  cases (0 : Number).atMost number <;> cases number.atMost 1 <;> simp [pure, Except.pure]

end Checks

/-! ### What a check finds -/

/-- The field that a complaint is about; a complaint about two frequencies in the wrong order is
about neither, and one about a whole section or object is about no field. -/
def Complaint.field? : Complaint → Option String
  | .required field => some field
  | .notNumber field _ => some field
  | .notListed field _ _ => some field
  | .tooLow field _ _ _ => some field
  | .tooHigh field _ _ _ => some field
  | .outside field _ _ => some field
  | .tooFewClusters _ => some "max_clusters_per_member"
  | .tooManyClusters _ _ => some "max_clusters_per_member"
  | .notPositive field _ => some field
  | .notShare field _ => some field
  | .environmentNotInteger name _ => some name
  | _ => none

/-- A check can be made, and what it finds is about its field. -/
def Finds (name : String) (check : Except Failure (List Complaint)) : Prop :=
  ∃ found, check = .ok found ∧ ∀ c ∈ found, c.field? = some name

section Finds

variable {name : String} {value : Json}

theorem Json.InRange.finds_bind_measure {complain : Option Number → Except Failure (List Complaint)}
    (h : value.InRange) (hcomplain : ∀ measured, Finds name (complain measured)) :
    Finds name (value.measure >>= complain) := by
  rcases h.measure with ⟨number, hmeasure, -⟩ | ⟨hmeasure, -⟩
  · rw [hmeasure]
    exact hcomplain (some number)
  · rw [hmeasure]
    exact hcomplain none

theorem finds_nil : Finds name (.ok []) := ⟨[], rfl, fun _ hc => nomatch hc⟩

theorem finds_singleton {c : Complaint} (h : c.field? = some name) : Finds name (.ok [c]) :=
  ⟨[c], rfl, fun _ hc => List.mem_singleton.1 hc ▸ h⟩

theorem finds_wordComplaints (listed : List String) :
    Finds name (.ok (wordComplaints name value listed)) := by
  unfold wordComplaints
  split
  · split_ifs
    · exact finds_nil
    · exact finds_singleton rfl
  · exact finds_singleton rfl

theorem Bounds.finds_complaints (b : Bounds) (h : value.InRange) :
    Finds name (b.complaints name value) := by
  unfold complaints
  split
  · exact finds_singleton rfl
  · refine h.finds_bind_measure fun measured => ?_
    cases measured with
    | none => exact finds_singleton rfl
    | some number =>
      refine ⟨_, rfl, fun c hc => ?_⟩
      rcases List.mem_append.1 hc with hc | hc
      · split_ifs at hc
        · exact List.mem_singleton.1 hc ▸ rfl
        · cases hc
      · split_ifs at hc
        · exact List.mem_singleton.1 hc ▸ rfl
        · cases hc

theorem Session.finds_similarityComplaints (h : value.InRange) :
    Finds "similarity_threshold" (similarityComplaints value) := by
  refine h.finds_bind_measure fun measured => ?_
  cases measured with
  | none => exact finds_singleton rfl
  | some number =>
    dsimp only
    split_ifs
    · exact finds_singleton rfl
    · exact finds_singleton rfl
    · exact finds_nil

theorem Session.finds_maxClustersComplaints (h : value.InRange) :
    Finds "max_clusters_per_member" (maxClustersComplaints value) := by
  refine h.finds_bind_measure fun measured => ?_
  cases measured with
  | none => exact finds_singleton rfl
  | some number =>
    dsimp only
    split_ifs
    · exact finds_singleton rfl
    · exact finds_singleton rfl
    · exact finds_nil

theorem Runtime.finds_positiveComplaints (h : value.InRange) :
    Finds name (positiveComplaints name value) := by
  refine h.finds_bind_measure fun measured => ?_
  cases measured with
  | none => exact finds_singleton rfl
  | some number =>
    dsimp only
    split_ifs
    · exact finds_singleton rfl
    · exact finds_nil

theorem Runtime.finds_logLevelComplaints : Finds "log_level" (.ok (logLevelComplaints value)) := by
  unfold logLevelComplaints
  split_ifs
  · exact finds_nil
  · exact finds_singleton rfl

end Finds

/-! ### Checked fields -/

/-- A field that is checked by itself: the values its check accepts, and what it finds in others. -/
structure CheckedField (σ : Type) where
  name : String
  value : σ → Json
  check : Json → Except Failure (List Complaint)
  accepts : Json → Prop
  finds : ∀ {value : Json}, value.InRange → Finds name (check value)
  check_eq_nil_iff : ∀ {value : Json}, value.InRange → (check value = .ok [] ↔ accepts value)

namespace CheckedField

variable {σ τ : Type}

/-- A field that holds one of a few words. -/
def ofWords (name : String) (value : σ → Json) (listed : List String) : CheckedField σ where
  name := name
  value := value
  check value := .ok (wordComplaints name value listed)
  accepts value := ∃ word ∈ listed, value = .str word
  finds _ := finds_wordComplaints listed
  check_eq_nil_iff _ := by rw [Except.ok.injEq, wordComplaints_eq_nil_iff]

/-- A field that holds a number in an interval. -/
def ofBounds (name : String) (value : σ → Json) (bounds : Bounds) (I : Set Line)
    (hI : ∀ {value : Json}, value.InRange →
      (bounds.complaints name value = .ok [] ↔ value.IsNumberIn I)) : CheckedField σ where
  name := name
  value := value
  check := bounds.complaints name
  accepts value := value.IsNumberIn I
  finds := bounds.finds_complaints
  check_eq_nil_iff := hI

/-- A field that holds a number from one on. -/
def ofPositive (name : String) (value : σ → Json) : CheckedField σ where
  name := name
  value := value
  check := Runtime.positiveComplaints name
  accepts value := value.IsNumberIn (Set.Ici 1)
  finds := Runtime.finds_positiveComplaints
  check_eq_nil_iff := Runtime.positiveComplaints_eq_nil_iff

/-- A field of a part as one of the whole. -/
def within (part : τ → σ) (field : CheckedField σ) : CheckedField τ :=
  { field with value := fun whole => field.value (part whole) }

/-- What the check of the field finds. -/
def found (field : CheckedField σ) (s : σ) : List Complaint :=
  (field.check (field.value s)).toOption.getD []

/-- What the checks of some fields find, one field after the other. -/
def allFound (fields : List (CheckedField σ)) (s : σ) : List Complaint :=
  fields.flatMap fun field => field.found s

/-- The integers in the fields lie in the range of doubles. -/
def AllInRange (fields : List (CheckedField σ)) (s : σ) : Prop :=
  ∀ field ∈ fields, (field.value s).InRange

instance decidableAllInRange (fields : List (CheckedField σ)) (s : σ) :
    Decidable (AllInRange fields s) :=
  inferInstanceAs (Decidable (∀ field ∈ fields, (field.value s).InRange))

section Found

variable {field : CheckedField σ} {fields fields' : List (CheckedField σ)} {s : σ}

theorem check_eq (h : (field.value s).InRange) :
    field.check (field.value s) = .ok (field.found s) := by
  obtain ⟨found, hfound, -⟩ := field.finds h
  rw [CheckedField.found, hfound]
  rfl

theorem found_eq_nil_iff (h : (field.value s).InRange) :
    field.found s = [] ↔ field.accepts (field.value s) := by
  rw [← field.check_eq_nil_iff h, check_eq h, Except.ok.injEq]

theorem field?_of_mem_found (h : (field.value s).InRange) {c : Complaint}
    (hc : c ∈ field.found s) : c.field? = some field.name := by
  obtain ⟨found, hfound, habout⟩ := field.finds h
  rw [CheckedField.found, hfound] at hc
  exact habout c hc

theorem allFound_eq_nil_iff (h : AllInRange fields s) :
    allFound fields s = [] ↔ ∀ field ∈ fields, field.accepts (field.value s) := by
  rw [allFound, List.flatMap_eq_nil_iff]
  exact forall₂_congr fun field hfield => found_eq_nil_iff (h field hfield)

theorem allFound_append :
    allFound (fields ++ fields') s = allFound fields s ++ allFound fields' s :=
  List.flatMap_append

theorem allFound_map_within {part : τ → σ} {whole : τ} :
    allFound (fields.map (within part)) whole = allFound fields (part whole) :=
  List.flatMap_map _ _ _

theorem exists_of_mem_allFound (h : AllInRange fields s) {c : Complaint}
    (hc : c ∈ allFound fields s) : ∃ field ∈ fields, c.field? = some field.name := by
  obtain ⟨field, hfield, hc⟩ := List.mem_flatMap.1 hc
  exact ⟨field, hfield, field?_of_mem_found (h field hfield) hc⟩

/-- Nothing is said about other names. -/
theorem filter_allFound_of_forall_ne (h : AllInRange fields s) {name : String}
    (hname : ∀ field ∈ fields, field.name ≠ name) :
    (allFound fields s).filter (fun c => c.field? == some name) = [] := by
  rw [List.filter_eq_nil_iff]
  intro c hc
  obtain ⟨field, hfield, he⟩ := exists_of_mem_allFound h hc
  simpa [he] using hname field hfield

/-- What is said about one of the fields is found by its own check. -/
theorem filter_allFound (h : AllInRange fields s)
    (hnames : (fields.map CheckedField.name).Nodup) (hfield : field ∈ fields) :
    (allFound fields s).filter (fun c => c.field? == some field.name) = field.found s := by
  induction fields with
  | nil => cases hfield
  | cons first rest ih =>
    obtain ⟨hfirst, hrest⟩ := List.forall_mem_cons.1 h
    rw [List.map_cons, List.nodup_cons] at hnames
    have hdiffers {other : CheckedField σ} (hother : other ∈ rest) : other.name ≠ first.name :=
      fun he => hnames.1 (he ▸ List.mem_map_of_mem hother)
    change (first.found s ++ allFound rest s).filter _ = _
    rw [List.filter_append]
    rcases List.mem_cons.1 hfield with rfl | hmem
    · rw [List.filter_eq_self.2 fun c hc => by simp [field?_of_mem_found hfirst hc],
        filter_allFound_of_forall_ne hrest fun other => hdiffers, List.append_nil]
    · rw [ih hrest hnames.2 hmem, List.filter_eq_nil_iff.2, List.nil_append]
      intro c hc
      simpa [field?_of_mem_found hfirst hc] using (hdiffers hmem).symm

end Found
end CheckedField

end RoleMining
