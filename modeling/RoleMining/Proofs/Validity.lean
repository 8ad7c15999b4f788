import RoleMining.Intersection
import RoleMining.Proofs.Thresholds

/-!
# Valid settings

Settings that have no complaints pass every check that an analysis makes of them: the session is a
policy, and the detection has limits for the extraction of shared sets. The two check a share in
different words, one against the bounds as doubles, the other as integers.
-/
namespace RoleMining

namespace Binary64

variable {x y : Binary64}

theorem atMost_of_not_below (hx : x.isNaN = false) (hy : y.isNaN = false)
    (h : y.below x = false) : x.atMost y = true := by
  cases x with
  | nan => cases hx
  | infinite negative =>
    cases y with
    | nan => cases hy
    | infinite negative' => cases negative <;> cases negative' <;> simp_all [atMost, below, same]
    | finite => simpa [atMost, below, same] using h
  | finite =>
    cases y with
    | nan => cases hy
    | infinite negative' => simpa [atMost, below, same] using h
    | finite =>
      simp only [below, decide_eq_false_iff_not, not_lt] at h
      simpa [atMost, below, same] using lt_or_eq_of_le h

end Binary64

namespace Number

variable {a b : Number} {x : Binary64} {n : ℤ}

theorem isNaN_float (x : Binary64) : (Number.float x).isNaN = x.isNaN := by
  cases x <;> rfl

theorem atMost_of_not_below (ha : a.isNaN = false) (hb : b.isNaN = false)
    (h : b.below a = false) : a.atMost b = true := by
  cases a with
  | int m =>
    cases b with
    | int n =>
      simp only [atMost, below, same, Bool.or_eq_true, decide_eq_true_eq, beq_iff_eq,
        decide_eq_false_iff_not] at h ⊢
      omega
    | float y =>
      cases y with
      | nan => cases hb
      | infinite negative => simpa [atMost, below, same, Binary64.isFinite] using h
      | finite =>
        simp only [atMost, below, same, Binary64.isFinite, Bool.true_and, Bool.or_eq_true,
          decide_eq_true_eq, beq_iff_eq, decide_eq_false_iff_not, not_lt] at h ⊢
        exact (lt_or_eq_of_le h).imp_right Eq.symm
  | float x =>
    cases b with
    | int n =>
      cases x with
      | nan => cases ha
      | infinite negative => simpa [atMost, below, same, Binary64.isFinite] using h
      | finite =>
        simp only [atMost, below, same, Binary64.isFinite, Bool.true_and, Bool.or_eq_true,
          decide_eq_true_eq, beq_iff_eq, decide_eq_false_iff_not, not_lt] at h ⊢
        exact lt_or_eq_of_le h
    | float y =>
      rw [isNaN_float] at ha hb
      exact Binary64.atMost_of_not_below ha hb h

/-- A double that is an integer is compared as the integer is. -/
theorem below_float_eq (hx : x.isFinite = true) (hvalue : x.value = n) (a : Number) :
    a.below (.float x) = a.below (.int n) := by
  cases x with
  | nan => cases hx
  | infinite => cases hx
  | finite =>
    cases a with
    | int m => simp only [below, hvalue, Int.cast_lt]
    | float y =>
      cases y with
      | nan => rfl
      | infinite => rfl
      | finite =>
        simp only [below, Binary64.below, hvalue]

theorem float_below_eq (hx : x.isFinite = true) (hvalue : x.value = n) (a : Number) :
    (Number.float x).below a = (Number.int n).below a := by
  cases x with
  | nan => cases hx
  | infinite => cases hx
  | finite =>
    cases a with
    | int m => simp only [below, hvalue, Int.cast_lt]
    | float y =>
      cases y with
      | nan => rfl
      | infinite => rfl
      | finite =>
        simp only [below, Binary64.below, hvalue]

end Number

/-! ### Detection -/

namespace Detection

variable {value : Json} {field : String}

theorem shareComplaints_eq_nil (h : frequencyBounds.complaints field value = .ok []) :
    Intersection.Limits.shareComplaints field value = .ok [] := by
  obtain ⟨number, hvalue, hlow, hhigh⟩ := Bounds.measure_of_complaints h
  have hnan := (Json.number?_of_measure hvalue).2
  have hzero : number.below (.int 0) = false := by
    rw [← Number.below_float_eq (x := 0.0) (by decide +kernel) (by decide +kernel)]
    exact hlow
  have hone : (Number.int 1).below number = false := by
    rw [← Number.float_below_eq (x := 1.0) (by decide +kernel) (by decide +kernel)]
    exact hhigh
  have hatLeast : (0 : Number).atMost number = true :=
    Number.atMost_of_not_below rfl hnan hzero
  have hatMost : number.atMost 1 = true := Number.atMost_of_not_below hnan rfl hone
  unfold Intersection.Limits.shareComplaints
  rw [hvalue]
  simp [bind, Except.bind, pure, Except.pure, hatLeast, hatMost]

/-- Options without complaints are limits of an extraction. -/
theorem exists_limits {d : Detection} (h : d.complaints = .ok []) : ∃ limits,
    Intersection.Limits.check d.minIntersection d.minFrequency d.maxFrequency = .ok limits := by
  obtain ⟨hlow, hhigh, ⟨low, high, hlowValue, hhighValue, horder⟩, hsize, -⟩ :=
    faultless_of_complaints h
  obtain ⟨size, hsizeValue, hsizeLow, -⟩ := Bounds.measure_of_complaints hsize
  obtain ⟨low', hlowValue', -⟩ := Bounds.measure_of_complaints hlow
  obtain ⟨high', hhighValue', -⟩ := Bounds.measure_of_complaints hhigh
  obtain rfl := Except.ok.inj (hlowValue.symm.trans hlowValue')
  obtain rfl := Except.ok.inj (hhighValue.symm.trans hhighValue')
  have hordered : high'.below low' = false := by
    cases hbelow : high'.below low' with
    | false => rfl
    | true => simp [orderComplaints, hbelow] at horder
  have hpositive : Runtime.positiveComplaints "min_intersection" d.minIntersection = .ok [] := by
    have hreached : size.below 1 = false := hsizeLow
    unfold Runtime.positiveComplaints
    rw [hsizeValue]
    simp [bind, Except.bind, pure, Except.pure, hreached]
  refine ⟨{ minSize := size, band := { low := low', high := high' } }, ?_⟩
  unfold Intersection.Limits.check
  rw [hpositive, shareComplaints_eq_nil hlow, shareComplaints_eq_nil hhigh,
    (Json.number?_of_measure hsizeValue).1, (Json.number?_of_measure hlowValue).1,
    (Json.number?_of_measure hhighValue).1]
  simp [bind, Except.bind, pure, Except.pure, hordered]

end Detection

/-! ### Sessions -/

theorem exists_of_wordComplaints {field : String} {value : Json} {listed : List String}
    (h : wordComplaints field value listed = []) : ∃ word ∈ listed, value = .str word := by
  unfold wordComplaints at h
  split at h
  next word =>
    split at h
    next hlisted => exact ⟨word, by simpa using hlisted, rfl⟩
    next => cases h
  next => cases h

/-- A field that may only hold a number holds one. -/
theorem Json.exists_number {value : Json}
    {complain : Option Number → Except Failure (List Complaint)} (hnone : complain none ≠ .ok [])
    (h : value.measure >>= complain = .ok []) : ∃ number, value.number? = some number := by
  obtain ⟨measured, hmeasure, h⟩ := bind_eq_ok_iff.1 h
  cases measured with
  | none => exact absurd h hnone
  | some number => exact ⟨number, (Json.number?_of_measure hmeasure).1⟩

namespace Session

variable {s : Session}

theorem exists_mode (h : wordComplaints "process_mode" s.processMode processModes = []) :
    ∃ word mode, s.processMode = .str word ∧ Mode.ofName? word = some mode := by
  obtain ⟨word, hlisted, hword⟩ := exists_of_wordComplaints h
  rcases List.mem_pair.1 hlisted with rfl | rfl
  · exact ⟨"user", .user, hword, by decide⟩
  · exact ⟨"role", .role, hword, by decide⟩

theorem exists_strategy
    (h : wordComplaints "clustering_method" s.clusteringMethod clusteringMethods = []) :
    ∃ word strategy, s.clusteringMethod = .str word ∧ Strategy.ofName? word = some strategy := by
  obtain ⟨word, hlisted, hword⟩ := exists_of_wordComplaints h
  rcases List.mem_pair.1 hlisted with rfl | rfl
  · exact ⟨"leiden", .communities, hword, rfl⟩
  · exact ⟨"exact", .exact, hword, rfl⟩

/-- A session without complaints is a policy. -/
theorem exists_check (h : s.complaints = .ok []) : ∃ policy, s.check = .ok policy := by
  have hfields := faultless_of_complaints h
  obtain ⟨modeWord, mode, hmodeWord, hmode⟩ := exists_mode hfields.mode
  obtain ⟨word, strategy, hword, hstrategy⟩ := exists_strategy hfields.method
  obtain ⟨similarity, hsimilarity⟩ := Json.exists_number (fun h => by cases h) hfields.similarity
  obtain ⟨shared, hshared, -⟩ := Bounds.exists_of_complaints hfields.shared
  obtain ⟨members, hmembers, -⟩ := Bounds.exists_of_complaints hfields.members
  obtain ⟨properties, hproperties, -⟩ := Bounds.exists_of_complaints hfields.properties
  obtain ⟨resolution, hresolution, -⟩ := Bounds.exists_of_complaints hfields.resolution
  obtain ⟨coverage, hcoverage, -⟩ := Bounds.exists_of_complaints hfields.coverage
  obtain ⟨clusters, hclusters⟩ := Json.exists_number (fun h => by cases h) hfields.clusters
  have hpolicy : ∃ policy, s.policy? = some policy := by
    unfold policy?
    rw [hmodeWord, hword]
    simp only [hmode, hstrategy, hsimilarity, hshared, hresolution, hmembers, hproperties,
      hcoverage, hclusters, Option.bind_eq_bind, Option.bind_some]
    exact ⟨_, rfl⟩
  obtain ⟨policy, hpolicy⟩ := hpolicy
  refine ⟨policy, ?_⟩
  unfold check ensureNone Session.policy
  rw [h, hpolicy]
  rfl

end Session

/-! ### Settings -/

/-- Settings without complaints have none about the session or the detection. -/
theorem Settings.parts_of_complaints {settings : Settings} (h : settings.complaints = .ok []) :
    settings.session.complaints = .ok [] ∧ settings.detection.complaints = .ok [] := by
  unfold complaints complaintsAbout at h
  obtain ⟨first, hfirst, h⟩ := bind_eq_ok_iff.1 h
  obtain ⟨second, hsecond, h⟩ := bind_eq_ok_iff.1 h
  obtain ⟨third, -, h⟩ := bind_eq_ok_iff.1 h
  have hnone := Except.ok.inj h
  simp only [List.append_eq_nil_iff] at hnone
  obtain ⟨⟨rfl, rfl⟩, rfl⟩ := hnone
  exact ⟨hfirst, hsecond⟩

end RoleMining
