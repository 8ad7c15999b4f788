import RoleMining.Proofs.Analysis.Feasibility
import RoleMining.Proofs.Service.Measuring

/-!
# What requests are answered

A request with a JSON value for its body is answered as a good or as a bad one, with few exceptions:
values that break a reader, and work that numbers beyond doubles, or settings beyond what their
checks foresee, bring to an early end. Those are answered as errors of the service. The stack of the
service is taken to have room for a copy of the body, so that no nested value is one of them.
-/
namespace RoleMining

/-! ### Detection in a population -/

/-- A supported body has a score that is too large. -/
def Reference.Unscored (r : Reference) : Prop :=
  ∃ S B, r.Supports S B ∧
    Binary64.ofInt? (B.weighted r.bodyWeight * S.weighted r.supportWeight) = none

namespace Pattern

variable {α : Type} {mode : Mode} {thresholds : Thresholds} {chunks : List Chunk} {run : Run α}

/-- Whatever the chunks are, a detection fails on nothing but a number. -/
theorem eq_numberTooLarge_of_detect {failure : Failure}
    (h : detect mode thresholds chunks run = .error failure) : failure = .numberTooLarge := by
  unfold detect at h
  split at h
  next => cases h
  next =>
    dsimp only [pure_bind] at h
    cases hkept : surviving thresholds.band (total (supportWeights chunks).values) chunks with
    | error e =>
      rw [hkept] at h
      obtain rfl := Except.error.inj h
      obtain ⟨c, -, hc⟩ := exists_of_filterM_eq_error hkept
      have hfrequency := eq_error_of_bind (fun _ => ⟨_, rfl⟩) hc
      unfold Chunk.frequency at hfrequency
      split at hfrequency
      next => cases hfrequency
      next =>
        split at hfrequency
        next => cases hfrequency
        next => exact (Except.error.inj hfrequency).symm
    | ok kept =>
      rw [hkept] at h
      have hlisted := eq_error_of_bind (fun _ => ⟨_, rfl⟩) h
      obtain ⟨⟨B, S⟩, -, hfinding⟩ := exists_of_mapM_eq_error hlisted
      exact (ofFinding_eq_error hfinding).1

/-- What a detection in a population breaks on: a number that is too large. -/
def Breakdown (settings : Settings) (records : List Record) : Prop :=
  ∃ policy thresholds, settings.session.check = .ok policy ∧
    settings.detection.check = .ok thresholds ∧
    detect policy.mode thresholds (Reference.ofRecords policy.mode records thresholds).chunks
      (Run.unwatched : Run Unit) = .error .numberTooLarge

/-- The number that is too large is the score of a supported body. Only role mode needs distinct
identities for that. -/
theorem breakdown_iff {settings : Settings} {policy : Policy} {records : List Record}
    (hsession : settings.session.check = .ok policy)
    (hthresholds : settings.detection.check = .ok thresholds)
    (hoids : policy.mode = .role → (records.map (·.oid)).Nodup) :
    Breakdown settings records ↔ (Reference.ofRecords policy.mode records thresholds).Unscored := by
  have hr := Reference.consistent_ofRecords_of_role policy.mode thresholds hoids
  constructor
  · rintro ⟨policy', thresholds', hsession', hthresholds', h⟩
    obtain rfl := Except.ok.inj (hsession.symm.trans hsession')
    obtain rfl := Except.ok.inj (hthresholds.symm.trans hthresholds')
    exact (Reference.detect_eq_error hr ((Reference.detect_ofRecords ..).trans h)).2
  · rintro ⟨S, B, hS, hnone⟩
    refine ⟨policy, thresholds, hsession, hthresholds, ?_⟩
    cases h : detect policy.mode thresholds
        (Reference.ofRecords policy.mode records thresholds).chunks (Run.unwatched : Run Unit) with
    | error failure => rw [eq_numberTooLarge_of_detect h]
    | ok found =>
      have hfound := (Reference.detect_ofRecords ..).trans h
      have hafter := Reference.cancelled_detect hr Run.unhindered_unwatched hfound
      have hsome := Reference.isSome_score_of_detect hr hfound hafter
        (Reference.describes_ofRecords_of_role policy.mode thresholds hoids) hS
      rw [hnone] at hsome
      cases hsome

end Pattern

/-! ### Analysis of a population -/

namespace Analysis

variable {finder : CommunityFinder} {settings : Settings} {records : List Record}

/-- What an analysis breaks on that takes every chunk for a cluster: an infinite interval, weights
beyond doubles, or something else that is not feasible, unless a weight has wrapped around. -/
inductive Breakdown (finder : CommunityFinder) (settings : Settings) (records : List Record) : Prop
  | interval (h : settings.runtime.progressInterval = .float (.infinite false))
  | uncountable {policy : Policy} (hsession : settings.session.check = .ok policy)
    (h : ¬ Frequencies.Countable (analysed policy.mode records))
  | infeasible {policy : Policy} {thresholds : Thresholds}
    (hsession : settings.session.check = .ok policy)
    (hthresholds : settings.detection.check = .ok thresholds)
    (hweighable : Clustering.Weighable policy (Clustering.chunksFor policy.mode records))
    (h : ¬ Feasible finder policy thresholds records)

/-- What has been counted, and is feasible if it has been weighed, does not break down. -/
theorem not_breakdown {policy : Policy} {thresholds : Thresholds}
    (hsession : settings.session.check = .ok policy)
    (hthresholds : settings.detection.check = .ok thresholds)
    (hinterval : settings.runtime.progressInterval ≠ .float (.infinite false))
    (hcountable : Frequencies.Countable (analysed policy.mode records))
    (h : Clustering.Weighable policy (Clustering.chunksFor policy.mode records) →
      Feasible finder policy thresholds records) : ¬ Breakdown finder settings records := by
  intro hbreakdown
  cases hbreakdown with
  | interval h => exact hinterval h
  | uncountable hsession' hnot =>
    obtain rfl := Except.ok.inj (hsession.symm.trans hsession')
    exact hnot hcountable
  | infeasible hsession' hthresholds' hweighable hnot =>
    obtain rfl := Except.ok.inj (hsession.symm.trans hsession')
    obtain rfl := Except.ok.inj (hthresholds.symm.trans hthresholds')
    exact hnot (h hweighable)

theorem breaks_ofSettings_iff (finder : CommunityFinder) (hvalid : settings.complaints = .ok [])
    (hexact : settings.session.clusteringMethod = .str "exact") (records : List Record) :
    Breaks (ofSettings finder settings records) ↔ Breakdown finder settings records := by
  obtain ⟨hsessionValid, hdetection⟩ := Settings.parts_of_complaints hvalid
  obtain ⟨policy, hsession⟩ := Session.exists_check hsessionValid
  obtain ⟨thresholds, hthresholds, -⟩ := Detection.exists_check hdetection
  by_cases hinterval : settings.runtime.progressInterval = .float (.infinite false)
  · rw [ofSettings_eq_error finder hvalid hinterval]
    exact iff_of_true (breaks_error_iff.2 rfl) (.interval hinterval)
  · have houtcome := outcome_ofSettings finder hvalid hexact hsession hthresholds hinterval records
    generalize ofSettings finder settings records = result at houtcome
    cases houtcome with
    | result h x =>
      refine iff_of_false (not_breaks_ok x) ?_
      exact not_breakdown hsession hthresholds hinterval h.countable fun _ => h
    | uncountable h => exact iff_of_true (breaks_error_iff.2 rfl) (.uncountable hsession h)
    | unweighable hcountable h =>
      refine iff_of_false (not_breaks_error rfl) ?_
      exact not_breakdown hsession hthresholds hinterval hcountable fun hweighable =>
        absurd hweighable h
    | unplaceable hweighable h =>
      refine iff_of_true (breaks_error_iff.2 rfl) (.infeasible hsession hthresholds hweighable ?_)
      exact fun hfeasible => h hfeasible.placeable
    | unscorable hweighable h =>
      exact iff_of_true (breaks_error_iff.2 rfl) (.infeasible hsession hthresholds hweighable h)

/-- With room for a copy of the settings, to show a result breaks nothing. -/
theorem breaks_answer_iff {room : ℕ} (finder : CommunityFinder)
    (hvalid : settings.complaints = .ok []) (hroom : settings.NestsWithin room)
    (hexact : settings.session.clusteringMethod = .str "exact") (records : List Record) :
    Breaks (answer room finder settings records) ↔ Breakdown finder settings records := by
  rw [answer_eq, breaks_bind_iff, breaks_ofSettings_iff finder hvalid hexact]
  refine or_iff_left ?_
  rintro ⟨x, hx, hbreaks⟩
  have hnests : x.2.settings.NestsWithin room := settings_of_ofSettings hvalid hx ▸ hroom
  obtain ⟨fields, hfields⟩ := exists_fields hnests
  rw [hfields] at hbreaks
  exact not_breaks_ok _ hbreaks

end Analysis

/-! ### Endpoints -/

namespace Service

variable {s : Service} {fields : Fields} {settings : Settings} {records : List Record}

theorem breaks_validate_iff {overrides : Json} (hroom : overrides.depth ≤ s.room) :
    Breaks (s.validate overrides) ↔ Settings.Broken overrides := by
  refine Settings.breaks_overridden_bind_iff fun sheet hsheet => ?_
  have hcopied := Settings.copied_of_nestsWithin
    (Settings.nestsWithin_of_overridden hroom hsheet)
  refine Iff.trans (breaks_bind_ok_iff fun found => ?_) (Settings.gauges_complaints _).breaks_iff
  rw [hcopied]
  exact ⟨_, rfl⟩

/-- Settings that a request brings are valid. -/
theorem complaints_of_settingsOf (h : settingsOf fields = .ok settings) :
    settings.complaints = .ok [] := by
  unfold settingsOf at h
  dsimp only at h
  split at h
  next => exact (Settings.ensureValid_eq_ok_iff.1 h).2 ▸ (Settings.ensureValid_eq_ok_iff.1 h).1
  next =>
    split at h
    next =>
      obtain ⟨sheet, -, h⟩ := bind_eq_ok_iff.1 h
      exact (Settings.ensureValid_eq_ok_iff.1 h).2 ▸ (Settings.ensureValid_eq_ok_iff.1 h).1
    next => cases h

/-- Settings that a request brings nest no deeper than its body. -/
theorem nestsWithin_of_settingsOf {room : ℕ} (hroom : (Json.object fields).depth ≤ room)
    (h : settingsOf fields = .ok settings) : settings.NestsWithin room := by
  have hgiven : ((fields.lookup "config").getD .null).depth ≤ room := by
    cases hconfig : fields.lookup "config" with
    | none => exact Nat.zero_le room
    | some given =>
      obtain ⟨before, after, rfl, -⟩ := List.lookup_eq_some_iff.1 hconfig
      exact Json.depth_le_of_mem_object hroom ("config", given) (by simp)
  unfold settingsOf at h
  dsimp only at h
  split at h
  next =>
    obtain rfl := (Settings.ensureValid_eq_ok_iff.1 h).2
    exact Settings.nestsWithin_defaults
  next =>
    split at h
    next =>
      obtain ⟨sheet, hsheet, h⟩ := bind_eq_ok_iff.1 h
      obtain rfl := (Settings.ensureValid_eq_ok_iff.1 h).2
      exact Settings.nestsWithin_of_overridden hgiven hsheet
    next => cases h

/-- Only an object is taken for overrides; anything else is a bad value or stands for none. -/
theorem breaks_settingsOf_iff : Breaks (settingsOf fields) ↔
    ∃ entries, fields.lookup "config" = some (.object entries) ∧
      Settings.Broken (.object entries) := by
  have hdefaults : ¬ Breaks Settings.defaults.ensureValid :=
    Settings.ensureValid_defaults ▸ not_breaks_ok _
  unfold settingsOf
  dsimp only
  cases hconfig : fields.lookup "config" with
  | none => exact iff_of_false hdefaults (by simp)
  | some given =>
    rw [Option.getD_some]
    split
    next hempty =>
      refine iff_of_false hdefaults ?_
      rintro ⟨entries, hgiven, hbroken⟩
      obtain rfl := Option.some_inj.1 hgiven
      rw [List.isEmpty_iff.1 hempty] at hbroken
      exact Settings.not_broken_empty hbroken
    next =>
      split
      next hobject =>
        cases given with
        | object entries =>
          refine Settings.breaks_overridden_ensureValid_iff.trans ⟨fun h => ⟨entries, rfl, h⟩, ?_⟩
          rintro ⟨entries', hgiven, h⟩
          obtain rfl := Json.object.inj (Option.some_inj.1 hgiven)
          exact h
        | _ => cases hobject
      next hobject =>
        refine iff_of_false (not_breaks_error rfl) ?_
        rintro ⟨entries, hgiven, -⟩
        obtain rfl := Option.some_inj.1 hgiven
        exact hobject rfl

/-- What a request with a population breaks on: its settings, then its records, then the work on
them. -/
inductive Breakdown (fields : Fields) (work : Settings → List Record → Prop) : Prop
  | settings {entries : Fields} (hconfig : fields.lookup "config" = some (.object entries))
    (h : Settings.Broken (.object entries))
  | records {settings : Settings} (hsettings : settingsOf fields = .ok settings)
    (h : Population.Misweighed ((fields.lookup "records").getD .null))
  | work {settings : Settings} {records : List Record} (hsettings : settingsOf fields = .ok settings)
    (hrecords : recordsOf fields = .ok records) (h : work settings records)

theorem breaks_stages_iff {α : Type} {stage : Settings → List Record → Except Failure α}
    {work : Settings → List Record → Prop}
    (hwork : ∀ settings records, settingsOf fields = .ok settings →
      (Breaks (stage settings records) ↔ work settings records)) :
    Breaks (do
      let settings ← settingsOf fields
      let records ← recordsOf fields
      stage settings records) ↔ Breakdown fields work := by
  rw [breaks_bind_iff, breaks_settingsOf_iff]
  constructor
  · rintro (⟨entries, hconfig, h⟩ | ⟨settings, hsettings, h⟩)
    · exact .settings hconfig h
    · rcases breaks_bind_iff.1 h with h | ⟨records, hrecords, h⟩
      · exact .records hsettings (Population.breaks_ofPayload_iff.1 h)
      · exact .work hsettings hrecords ((hwork settings records hsettings).1 h)
  · intro h
    cases h with
    | settings hconfig h => exact .inl ⟨_, hconfig, h⟩
    | records hsettings h =>
      exact .inr ⟨_, hsettings, breaks_bind_iff.2 (.inl (Population.breaks_ofPayload_iff.2 h))⟩
    | work hsettings hrecords h =>
      exact .inr ⟨_, hsettings, breaks_bind_iff.2 (.inr ⟨_, hrecords, (hwork _ _ hsettings).2 h⟩)⟩

theorem breaks_analyze_iff (finder : CommunityFinder)
    (hroom : (Json.object fields).depth ≤ s.room)
    (hexact : ∀ settings, settingsOf fields = .ok settings →
      settings.session.clusteringMethod = .str "exact") :
    Breaks (s.analyze finder fields) ↔ Breakdown fields (Analysis.Breakdown finder) :=
  breaks_stages_iff fun _ records hsettings =>
    Analysis.breaks_answer_iff finder (complaints_of_settingsOf hsettings)
      (nestsWithin_of_settingsOf hroom hsettings) (hexact _ hsettings) records

theorem breaks_detect_iff : Breaks (detect fields) ↔ Breakdown fields Pattern.Breakdown := by
  refine breaks_stages_iff fun settings records hsettings => ?_
  obtain ⟨hsessionValid, hdetection⟩ :=
    Settings.parts_of_complaints (complaints_of_settingsOf hsettings)
  obtain ⟨policy, hsession⟩ := Session.exists_check hsessionValid
  obtain ⟨thresholds, hthresholds, -⟩ := Detection.exists_check hdetection
  have hpolicy : settings.session.policy = .ok policy := by
    unfold Session.policy
    rw [(Session.complaints_of_check hsession).2]
  refine Iff.trans (b := Breaks (Pattern.detect policy.mode thresholds
    (Reference.ofRecords policy.mode records thresholds).chunks (Run.unwatched : Run Unit))) ?_ ?_
  · rw [hpolicy, hthresholds]
    change Breaks (Pattern.detect policy.mode thresholds _ (Run.unwatched : Run Unit) >>= _) ↔ _
    refine (breaks_bind_ok_iff fun _ => ⟨_, rfl⟩).trans ?_
    cases policy.mode <;> rfl
  constructor
  · rintro ⟨failure, h, -⟩
    obtain rfl := Pattern.eq_numberTooLarge_of_detect h
    exact ⟨policy, thresholds, hsession, hthresholds, h⟩
  · rintro ⟨policy', thresholds', hsession', hthresholds', h⟩
    obtain rfl := Except.ok.inj (hsession.symm.trans hsession')
    obtain rfl := Except.ok.inj (hthresholds.symm.trans hthresholds')
    exact ⟨_, h, rfl⟩

/-! ### Replies -/

/-- A request is answered as a good or a bad one unless there is a ground against it, which is
answered as an error of the service. -/
structure FailsOn (status : ℕ) (ground : Prop) : Prop where
  fails : ground → status = 500
  answers : ¬ ground → status = 200 ∨ status = 400

theorem Answer.status_ofFailure (failure : Failure) :
    (ofFailure failure).status = if failure.isBadValue then 400 else 500 := by
  unfold ofFailure
  split
  next => rfl
  next => split <;> rfl

theorem failsOn_of_breaks_iff {x : Except Failure Answer} {ground : Prop}
    (hgood : ∀ a, x = .ok a → a.status = 200) (hx : Breaks x ↔ ground) :
    FailsOn (Answer.of x).status ground := by
  rw [← hx]
  cases x with
  | ok a => exact ⟨fun h => absurd h (not_breaks_ok a), fun _ => .inl (hgood a rfl)⟩
  | error failure =>
    change FailsOn (Answer.ofFailure failure).status _
    rw [Answer.status_ofFailure]
    refine ⟨fun h => by rw [breaks_error_iff.1 h]; rfl, fun h => .inr ?_⟩
    rw [if_pos (eq_true_of_ne_false (mt breaks_error_iff.2 h))]

/-- A request that brings a JSON value to an endpoint, and not more than the service takes: neither
more bytes nor more levels of nesting. -/
structure Posts (s : Service) (r : Request) (e : Endpoint) (body : Json) : Prop where
  method : Text.upper r.method = "POST"
  path : Endpoint.ofPath? (Target.rooted r.target.path) = some e
  content : r.content s.bodyLimit = .ok (.value body)
  room : body.depth ≤ s.room

theorem Posts.status_reply {s : Service} {r : Request} {e : Endpoint} {body : Json}
    (h : s.Posts r e body) (he : e.methods.contains "POST" = true) (finder : CommunityFinder) :
    (s.reply finder r).status = (Answer.of (s.answerAt finder r e)).status := by
  have hroute : Route.of r.method r.target.path = .endpoint e := by
    unfold Route.of
    simp only [h.path, h.method, he, if_true]
  unfold reply answerRoute
  rw [hroute]
  simp [h.method]

theorem failsOn_good {x : Except Failure Json} {ground : Prop} (hx : Breaks x ↔ ground) :
    FailsOn (Answer.of (do return .good (← x))).status ground := by
  refine failsOn_of_breaks_iff (fun a h => ?_) ((breaks_bind_ok_iff fun _ => ⟨_, rfl⟩).trans hx)
  obtain ⟨value, -, h⟩ := bind_eq_ok_iff.1 h
  rw [← Except.ok.inj h]
  rfl

/-- A service without an environment. -/
def standard : Service := .ofEnvironment .empty .null

def posting (path text : String) : Request where
  method := "POST"
  target := .ofText path
  headers := []
  body := some { contentType := "application/json", text }

/-- The content of a request does not depend on where it goes. -/
theorem content_posting (path path' text : String) (limit : Json) :
    (posting path text).content limit = (posting path' text).content limit := rfl

/-- One user with one role, and settings that ask for no communities. -/
def loneUserText : String :=
  "\x7b\"config\": \x7b\"clustering_method\": \"exact\"\x7d, \"records\": " ++
    "[\x7b\"oid\": \"ann\", \"roles\": [\"dev\"]\x7d]\x7d"

/-- Whether a request brings an object that there is room for, with settings that ask for no
communities if they are valid. -/
def isExactObject (s : Service) (r : Request) : Bool :=
  match r.content s.bodyLimit with
  | .ok (.value (.object fields)) =>
    decide ((Json.object fields).depth ≤ s.room) &&
      match settingsOf fields with
      | .ok settings =>
        match settings.session.clusteringMethod with
        | .str method => method == "exact"
        | _ => false
      | .error _ => true
  | _ => false

theorem exists_of_isExactObject {s : Service} {r : Request} (h : s.isExactObject r = true) :
    ∃ fields, r.content s.bodyLimit = .ok (.value (.object fields)) ∧
      (Json.object fields).depth ≤ s.room ∧
      ∀ settings, settingsOf fields = .ok settings →
        settings.session.clusteringMethod = .str "exact" := by
  unfold isExactObject at h
  split at h
  next fields hcontent =>
    obtain ⟨hroom, h⟩ := Bool.and_eq_true_iff.1 h
    refine ⟨fields, hcontent, of_decide_eq_true hroom, fun settings hsettings => ?_⟩
    rw [hsettings] at h
    dsimp only at h
    split at h
    next method hmethod => rw [hmethod, eq_of_beq h]
    next => cases h
  next => cases h

end Service
end RoleMining
