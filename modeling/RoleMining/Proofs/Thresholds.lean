import Mathlib.Algebra.Order.Field.Rat
import Mathlib.Data.Rat.Cast.Order
import RoleMining.Proofs.Results
import RoleMining.Settings.Policy

/-!
# Thresholds of valid options

Options without complaints have a number in each field, and neither of the sizes is below one. So a
check of such options succeeds.
-/
namespace RoleMining

theorem Json.number?_of_measure {value : Json} {number : Number}
    (h : value.measure = .ok (some number)) :
    value.number? = some number ∧ number.isNaN = false := by
  unfold measure at h
  split at h
  next n =>
    split at h
    · cases h
      exact ⟨rfl, rfl⟩
    · cases h
  next x =>
    cases hx : x.isNaN with
    | true => simp [hx] at h
    | false =>
      simp only [hx, Bool.false_eq_true, if_false, Except.ok.injEq, Option.some.injEq] at h
      subst h
      refine ⟨rfl, ?_⟩
      cases x with
      | nan => cases hx
      | infinite => rfl
      | finite => rfl
  next => cases h

namespace Bounds

/-- A field without complaints holds a number in its range. -/
theorem measure_of_complaints {b : Bounds} {field : String} {value : Json}
    (h : b.complaints field value = .ok []) : ∃ number, value.measure = .ok (some number) ∧
      b.isTooLow number = false ∧ b.isTooHigh number = false := by
  unfold complaints at h
  split at h
  next => cases h
  next =>
    obtain ⟨measured, hvalue, h⟩ := bind_eq_ok_iff.1 h
    cases measured with
    | none => cases h
    | some number =>
      have hnone := List.append_eq_nil_iff.1 (Except.ok.inj h)
      refine ⟨number, hvalue, ?_, ?_⟩
      · cases hlow : b.isTooLow number with
        | false => rfl
        | true => simp [hlow] at hnone
      · cases hhigh : b.isTooHigh number with
        | false => rfl
        | true => simp [hhigh] at hnone

/-- What a field without complaints holds. -/
theorem exists_of_complaints {b : Bounds} {field : String} {value : Json}
    (h : b.complaints field value = .ok []) :
    ∃ number, value.number? = some number ∧ number.isNaN = false ∧ b.isTooLow number = false := by
  obtain ⟨number, hvalue, hlow, -⟩ := measure_of_complaints h
  obtain ⟨hnumber, hnan⟩ := Json.number?_of_measure hvalue
  exact ⟨number, hnumber, hnan, hlow⟩

theorem of_complaints {b : Bounds} {field : String} {value : Json} {number : Number}
    (h : b.complaints field value = .ok []) (hnumber : value.number? = some number) :
    number.isNaN = false ∧ b.isTooLow number = false := by
  obtain ⟨number', hnumber', hnan, hlow⟩ := exists_of_complaints h
  obtain rfl := Option.some_inj.1 (hnumber'.symm.trans hnumber)
  exact ⟨hnan, hlow⟩

end Bounds

namespace Detection

/-- None of the fields has a complaint, and the frequencies are in order. -/
structure Faultless (d : Detection) : Prop where
  low : frequencyBounds.complaints "min_frequency" d.minFrequency = .ok []
  high : frequencyBounds.complaints "max_frequency" d.maxFrequency = .ok []
  order : ∃ low high, d.minFrequency.measure = .ok low ∧ d.maxFrequency.measure = .ok high ∧
    orderComplaints low high = []
  intersection : intersectionBounds.complaints "min_intersection" d.minIntersection = .ok []
  support : supportBounds.complaints "min_support" d.minSupport = .ok []

/-- The complaints of a part of the options are among those of the whole. -/
theorem faultless_of_complaints {d : Detection} (h : d.complaints = .ok []) : d.Faultless := by
  unfold complaints at h
  obtain ⟨low, hlow, h⟩ := bind_eq_ok_iff.1 h
  obtain ⟨high, hhigh, h⟩ := bind_eq_ok_iff.1 h
  obtain ⟨lowNumber, hlowNumber, h⟩ := bind_eq_ok_iff.1 h
  obtain ⟨highNumber, hhighNumber, h⟩ := bind_eq_ok_iff.1 h
  obtain ⟨size, hsize, h⟩ := bind_eq_ok_iff.1 h
  obtain ⟨support, hsupport, h⟩ := bind_eq_ok_iff.1 h
  have hnone := Except.ok.inj h
  simp only [List.append_eq_nil_iff] at hnone
  obtain ⟨⟨⟨⟨rfl, rfl⟩, horder⟩, rfl⟩, rfl⟩ := hnone
  exact ⟨hlow, hhigh, ⟨lowNumber, highNumber, hlowNumber, hhighNumber, horder⟩, hsize, hsupport⟩

/-- A check of options without complaints gives thresholds, and both sizes are at least one. -/
theorem exists_check {d : Detection} (h : d.complaints = .ok []) :
    ∃ thresholds, d.check = .ok thresholds ∧
      (thresholds.minIntersection.isNaN = false ∧ thresholds.minIntersection.below 1 = false) ∧
      (thresholds.minSupport.isNaN = false ∧ thresholds.minSupport.below 1 = false) := by
  obtain ⟨hlow, hhigh, -, hsize, hsupport⟩ := faultless_of_complaints h
  obtain ⟨low, hlow, -, -⟩ := Bounds.exists_of_complaints hlow
  obtain ⟨high, hhigh, -, -⟩ := Bounds.exists_of_complaints hhigh
  obtain ⟨size, hsize, hsizeNaN, hsizeLow⟩ := Bounds.exists_of_complaints hsize
  obtain ⟨support, hsupport, hsupportNaN, hsupportLow⟩ := Bounds.exists_of_complaints hsupport
  refine ⟨{ band := { low, high }, minIntersection := size, minSupport := support }, ?_,
    ⟨hsizeNaN, hsizeLow⟩, hsupportNaN, hsupportLow⟩
  simp [check, ensureNone, thresholds?, h, hlow, hhigh, hsize, hsupport, bind, Except.bind, pure,
    Except.pure]

/-- The thresholds of options that are left at their defaults. -/
def standard : Thresholds where
  band := { low := .float 0.0, high := .float 1.0 }
  minIntersection := 2
  minSupport := 2

theorem check_default : ({} : Detection).check = .ok standard := by
  have hvalid : ({} : Detection).complaints = .ok [] := by decide +kernel
  unfold check
  rw [hvalid]
  rfl

end Detection
/-! ### Sessions -/

/-- A number at most some integer is below every greater one. -/
theorem Number.below_of_atMost {n : Number} {a b : ℤ} (h : n.atMost (.int a) = true) (hab : a < b) :
    n.below (.int b) = true := by
  have hcast : (a : ℚ) < b := by exact_mod_cast hab
  cases n with
  | int n =>
    simp only [atMost, below, same, Bool.or_eq_true, decide_eq_true_eq, beq_iff_eq] at h ⊢
    omega
  | float x =>
    cases x with
    | nan => simp [atMost, below, same, Binary64.isFinite] at h
    | infinite negative =>
      simp only [atMost, below, same, Binary64.isFinite, Bool.false_and, Bool.or_false] at h ⊢
      exact h
    | finite =>
      simp only [atMost, below, same, Binary64.isFinite, Bool.true_and, Bool.or_eq_true,
        decide_eq_true_eq, beq_iff_eq] at h ⊢
      rcases h with h | h
      · exact h.trans hcast
      · exact h ▸ hcast

/-- What is above an integer is above every smaller one. -/
theorem Number.below_of_lt {n : Number} {a b : ℤ} (hab : a < b)
    (h : (Number.int b).below n = true) : (Number.int a).below n = true := by
  have hcast : (a : ℚ) < b := by exact_mod_cast hab
  cases n with
  | int n =>
    simp only [below, decide_eq_true_eq] at h ⊢
    omega
  | float x =>
    cases x with
    | nan => cases h
    | infinite negative => exact h
    | finite =>
      simp only [below, decide_eq_true_eq] at h ⊢
      exact hcast.trans h

namespace Session

variable {s : Session} {policy : Policy}

/-- None of the fields of a session has a complaint. -/
structure Faultless (s : Session) : Prop where
  mode : wordComplaints "process_mode" s.processMode processModes = []
  method : wordComplaints "clustering_method" s.clusteringMethod clusteringMethods = []
  similarity : similarityComplaints s.similarityThreshold = .ok []
  shared : sharedBounds.complaints "min_shared_properties" s.minSharedProperties = .ok []
  members : membersBounds.complaints "min_members_count" s.minMembers = .ok []
  properties : propertiesBounds.complaints "min_properties_count" s.minProperties = .ok []
  resolution : resolutionBounds.complaints "leiden_resolution" s.resolution = .ok []
  coverage : coverageBounds.complaints "min_overlap_coverage" s.minOverlapCoverage = .ok []
  clusters : maxClustersComplaints s.maxClustersPerMember = .ok []

/-- The complaints about a part of a session are among those about the whole. -/
theorem faultless_of_complaints (h : s.complaints = .ok []) : s.Faultless := by
  unfold complaints at h
  dsimp only at h
  obtain ⟨similarity, hsimilarity, h⟩ := bind_eq_ok_iff.1 h
  obtain ⟨shared, hshared, h⟩ := bind_eq_ok_iff.1 h
  obtain ⟨members, hmembers, h⟩ := bind_eq_ok_iff.1 h
  obtain ⟨properties, hproperties, h⟩ := bind_eq_ok_iff.1 h
  obtain ⟨resolution, hresolution, h⟩ := bind_eq_ok_iff.1 h
  obtain ⟨coverage, hcoverage, h⟩ := bind_eq_ok_iff.1 h
  obtain ⟨clusters, hclusters, h⟩ := bind_eq_ok_iff.1 h
  have hnone := Except.ok.inj h
  simp only [List.append_eq_nil_iff] at hnone
  obtain ⟨⟨⟨⟨⟨⟨⟨⟨hmode, hmethod⟩, rfl⟩, rfl⟩, rfl⟩, rfl⟩, rfl⟩, rfl⟩, rfl⟩ := hnone
  exact ⟨hmode, hmethod, hsimilarity, hshared, hmembers, hproperties, hresolution, hcoverage,
    hclusters⟩

/-- What the fields of a policy come from. -/
structure Spells (s : Session) (policy : Policy) : Prop where
  strategy : ∃ word, s.clusteringMethod = .str word ∧
    Strategy.ofName? word = some policy.strategy
  minShared : s.minSharedProperties.number? = some policy.minShared
  seed : policy.seed = s.randomSeed
  minMembers : s.minMembers.number? = some policy.minMembers
  minProperties : s.minProperties.number? = some policy.minProperties
  maxClusters : s.maxClustersPerMember.number? = some policy.maxClusters

theorem spells_of_policy? (h : s.policy? = some policy) : s.Spells policy := by
  unfold policy? at h
  split at h
  next =>
    split at h
    next word hword =>
      simp only [Option.bind_eq_bind, Option.bind_eq_some_iff] at h
      obtain ⟨mode, -, strategy, hstrategy, similarity, -, shared, hshared, resolution, -,
        members, hmembers, properties, hproperties, coverage, -, clusters, hclusters, h⟩ := h
      obtain rfl := Option.some_inj.1 h
      exact ⟨⟨word, hword, hstrategy⟩, hshared, rfl, hmembers, hproperties, hclusters⟩
    next => cases h
  next => cases h

theorem fields_of_policy? (h : s.policy? = some policy) :
    s.minSharedProperties.number? = some policy.minShared ∧
    s.maxClustersPerMember.number? = some policy.maxClusters ∧
    policy.seed = s.randomSeed ∧
    ∃ word, s.clusteringMethod = .str word ∧ Strategy.ofName? word = some policy.strategy :=
  have hspells := spells_of_policy? h
  ⟨hspells.minShared, hspells.maxClusters, hspells.seed, hspells.strategy⟩

/-- A checked session has nothing to complain about. -/
theorem complaints_of_check (h : s.check = .ok policy) :
    s.complaints = .ok [] ∧ s.policy? = some policy := by
  unfold check at h
  obtain ⟨⟨⟩, hnone, h⟩ := bind_eq_ok_iff.1 h
  unfold ensureNone at hnone
  obtain ⟨found, hfound, hnone⟩ := bind_eq_ok_iff.1 hnone
  refine ⟨?_, ?_⟩
  · cases found with
    | nil => exact hfound
    | cons => cases hnone
  · unfold Session.policy at h
    split at h
    next policy' hpolicy =>
      cases h
      exact hpolicy
    next => cases h

/-- A checked session asks for at least one shared property. -/
theorem one_le_minShared_of_check (h : s.check = .ok policy) :
    policy.minShared.below 1 = false := by
  obtain ⟨hnone, hpolicy⟩ := complaints_of_check h
  exact (Bounds.of_complaints (faultless_of_complaints hnone).shared
    (spells_of_policy? hpolicy).minShared).2

/-- A checked session asks for at least one member. -/
theorem one_le_minMembers_of_check (h : s.check = .ok policy) :
    policy.minMembers.isNaN = false ∧ policy.minMembers.below 1 = false := by
  obtain ⟨hnone, hpolicy⟩ := complaints_of_check h
  exact Bounds.of_complaints (faultless_of_complaints hnone).members
    (spells_of_policy? hpolicy).minMembers

/-- A checked session asks for at least one property. -/
theorem one_le_minProperties_of_check (h : s.check = .ok policy) :
    policy.minProperties.isNaN = false ∧ policy.minProperties.below 1 = false := by
  obtain ⟨hnone, hpolicy⟩ := complaints_of_check h
  exact Bounds.of_complaints (faultless_of_complaints hnone).properties
    (spells_of_policy? hpolicy).minProperties

/-- A checked session lets everybody be in some cluster. -/
theorem one_le_maxClusters_of_check (h : s.check = .ok policy) :
    policy.maxClusters.below 1 = false := by
  obtain ⟨hnone, hpolicy⟩ := complaints_of_check h
  have hclusters := (faultless_of_complaints hnone).clusters
  unfold maxClustersComplaints at hclusters
  obtain ⟨measured, hmeasure, hclusters⟩ := bind_eq_ok_iff.1 hclusters
  cases measured with
  | none => cases hclusters
  | some number =>
    have hnumber := (Json.number?_of_measure hmeasure).1
    rw [(fields_of_policy? hpolicy).2.1] at hnumber
    obtain rfl := Option.some_inj.1 hnumber
    cases hlow : policy.maxClusters.below 1 with
    | false => rfl
    | true => simp [hlow, pure, Except.pure] at hclusters

theorem one_le_of_check (h : s.check = .ok policy) {m : ℤ} (hmax : policy.maxClusters = .int m) :
    1 ≤ m := by
  have hlow := one_le_maxClusters_of_check h
  rw [hmax] at hlow
  exact not_lt.1 (of_decide_eq_false hlow)

end Session
end RoleMining
