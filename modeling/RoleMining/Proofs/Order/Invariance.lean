import RoleMining.Proofs.Analysis.Success
import RoleMining.Proofs.Order.Analyses

/-!
# The order of the records does not matter

Records in another order lead to the same outcome, whether it is a result or a failure, wherever the
run is stopped, and however many workers there are. When nothing disturbs the run there is only one
outcome, and under valid settings it is a result.
-/
namespace RoleMining.Analysis

variable {finder : CommunityFinder} {settings : Settings} {records records' : List Record}
variable {run after : AnalysisRun} {a : Analysis}

/-- When nothing disturbs it, the analysis of some records comes to `a`: in the loop, and in a pool
with any number of workers, in which every order of their steps leads there. -/
structure ComesTo (finder : CommunityFinder) (settings : Settings) (records : List Record)
    (a : Analysis) : Prop where
  complete : a.aborted = false
  loop : ∀ run : AnalysisRun, run.Undisturbed →
    ∃ after, ofRecords finder settings records run = .ok (after, a)
  pool : ∀ (run : AnalysisRun) (workers : Number), run.Undisturbed →
    (∃ result, MayReturn finder settings workers records run result) ∧
    ∀ result, MayReturn finder settings workers records run result →
      ∃ after, result = .ok (after, a)

/-- What one undisturbed run gives is what all of them give. -/
theorem comesTo_of_ofRecords (hrun : run.Undisturbed)
    (h : ofRecords finder settings records run = .ok (after, a)) :
    ComesTo finder settings records a := by
  obtain ⟨policy, thresholds, frequencies, x, y, hstages, rfl, rfl⟩ := ofRecords_eq_ok_iff.1 h
  have hclustered := hstages.continues_clustered.undisturbed hrun
  have hcomplete := (hstages.continues_analysed.undisturbed hclustered).complete
  have hloop (other : AnalysisRun) (hother : other.Undisturbed) :
      ∃ after, ofRecords finder settings records other =
        .ok (after, resultOf settings thresholds frequencies x.2 y) := by
    obtain ⟨x', y', hstages', hsame⟩ := hstages.agrees hcomplete hother
    exact ⟨y'.1, ofRecords_eq_ok_iff.2 ⟨_, _, _, x', y', hstages', rfl, hsame⟩⟩
  refine ⟨hcomplete, hloop, fun other workers hother => ⟨exists_mayReturn .., ?_⟩⟩
  intro result hresult
  obtain ⟨after, hafter⟩ := hloop other hother
  exact eq_of_mayReturn hother hresult hafter

/-- An analysis ignores the order of its records. Records with distinct identities whose weights are
added as doubles without rounding come to the same in every order, on any run and with any number of
workers. What they come to on one undisturbed run they come to on all others, in every order. Under
valid settings there is such a result, when each member may be in a whole number of clusters, a seed
is accepted if it is used, and the properties that are held can be counted in a machine word. -/
theorem analysis_ignores_order (finder : CommunityFinder) (settings : Settings)
    (hoids : (records.map (·.oid)).Nodup) (hweight : weightOf records < 2 ^ 53) :
    (∀ records', records.Perm records' →
      (∀ run, ofRecords finder settings records' run = ofRecords finder settings records run) ∧
      (∀ overrides run, perform finder overrides (some records') run =
        perform finder overrides (some records) run) ∧
      ∀ workers run result, MayReturn finder settings workers records' run result ↔
        MayReturn finder settings workers records run result) ∧
    (∀ run after a, run.Undisturbed → ofRecords finder settings records run = .ok (after, a) →
      ∀ records', records.Perm records' → ComesTo finder settings records' a) ∧
    (settings.complaints = .ok [] →
      ∀ m, settings.session.maxClustersPerMember = .int m →
      (settings.session.clusteringMethod = .str "exact" ∨
        Community.checkSeed settings.session.randomSeed = .ok ()) →
      (heldProperties records).size < 2 ^ 63 →
      ∀ run, ∃ after a, ofRecords finder settings records run = .ok (after, a)) := by
  have hloop {records' : List Record} (h : records.Perm records') (settings : Settings)
      (run : AnalysisRun) :
      ofRecords finder settings records' run = ofRecords finder settings records run :=
    (ofRecords_eq_of_perm h hoids hweight finder settings run).symm
  refine ⟨fun records' h =>
      ⟨hloop h settings, fun overrides run => ?_, fun workers run result => ?_⟩,
    fun run after a hrun ha records' h => ?_, fun hvalid m hmax hseed hsize => ?_⟩
  · unfold perform
    simp only [hloop h]
  · exact (mayReturn_iff_of_perm h hoids hweight finder settings workers run result).symm
  · exact comesTo_of_ofRecords hrun ((hloop h settings run).trans ha)
  · exact succeeds_ofRecords hweight hsize hoids hvalid hmax hseed finder

theorem two_users_come_to_one_result : (Pattern.twoUsers.map (·.oid)).Nodup ∧
    weightOf Pattern.twoUsers < 2 ^ 53 ∧ exactSettings.complaints = .ok [] ∧
    exactSettings.session.maxClustersPerMember = .int 3 ∧
    exactSettings.session.clusteringMethod = .str "exact" ∧
    (heldProperties Pattern.twoUsers).size < 2 ^ 63 ∧
    ∃ a : Analysis, a.clusters.length = 1 ∧
      ComesTo Community.best exactSettings Pattern.twoUsers a ∧
      ComesTo Community.best exactSettings Pattern.twoUsers.reverse a := by
  have hoids : (Pattern.twoUsers.map (·.oid)).Nodup := by decide
  have hweight : weightOf Pattern.twoUsers < 2 ^ 53 := by decide
  have hvalid : exactSettings.complaints = .ok [] := by decide +kernel
  have hsize : (heldProperties Pattern.twoUsers).size < 2 ^ 63 := by decide
  have hfull : (Run.unwatched : AnalysisRun).Undisturbed := Run.undisturbed_unwatched
  obtain ⟨-, hsame, hresult⟩ :=
    analysis_ignores_order Community.best exactSettings hoids hweight
  obtain ⟨after, a, ha⟩ := hresult hvalid 3 rfl (.inl rfl) hsize Run.unwatched
  have hclusters : ((ofRecords Community.best exactSettings Pattern.twoUsers
      Run.unwatched).toOption.map fun x => x.2.clusters.length) = some 1 := by decide +kernel
  rw [ha] at hclusters
  exact ⟨hoids, hweight, hvalid, rfl, rfl, hsize, a, Option.some_inj.1 hclusters,
    hsame _ after a hfull ha _ (.refl _), hsame _ after a hfull ha _ (List.reverse_perm _).symm⟩

end RoleMining.Analysis
