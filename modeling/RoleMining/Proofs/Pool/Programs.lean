import RoleMining.Proofs.Analysis.Completion
import RoleMining.Proofs.Pool.Work

/-!
# An analysis as work

The stages of the analysis of one cluster, access by access: the two passes over pairs, the
resolution of candidates, and what is put together from them. Each stage is what a thread performs
that has the run to itself. Unless it is stopped it is quiet, and whatever the other threads do, the
answer is about the cluster that was asked for.
-/
namespace RoleMining

variable {α : Type}

namespace Sweep

/-- The pairs that are left of a pass: what it has seen in all, and whether it was stopped. -/
def work (qualifies : IdSet → Bool) (total compared : ℕ) (seen : List IdSet) :
    List (IdSet × IdSet) → Work (List IdSet × Bool)
  | [] => do
    let stopped ← Work.checkpoint ⟨compared, total, true⟩
    return (seen.reverse, stopped)
  | (a, b) :: rest => do
    if ← Work.tick (compared + 1) total then return (seen.reverse, true)
    else
      let shared := a.inter b
      work qualifies total (compared + 1) (if qualifies shared then shared :: seen else seen) rest

def pairwiseWork (qualifies : IdSet → Bool) (sets : List IdSet) : Work (List IdSet × Bool) :=
  work qualifies (pairs sets).length 0 [] (pairs sets)

theorem perform_work (qualifies : IdSet → Bool) (total compared : ℕ) (seen : List IdSet)
    (ps : List (IdSet × IdSet)) (run : Run α) :
    (work qualifies total compared seen ps).perform run =
      .ok ((walk qualifies total run compared seen ps).run,
        ((walk qualifies total run compared seen ps).seen,
          (walk qualifies total run compared seen ps).stopped)) := by
  induction ps generalizing compared seen run with
  | nil => rw [work, Work.perform_bind_of_ok (Work.perform_checkpoint _ run)]; rfl
  | cons p ps ih =>
    obtain ⟨a, b⟩ := p
    rw [walk_cons, work, Work.perform_bind_of_ok (Work.perform_tick _ total run)]
    split
    next => rfl
    next => exact ih ..

theorem perform_pairwiseWork (qualifies : IdSet → Bool) (sets : List IdSet) (run : Run α) :
    (pairwiseWork qualifies sets).perform run = .ok ((pairwise qualifies run sets).run,
      ((pairwise qualifies run sets).seen, (pairwise qualifies run sets).stopped)) :=
  perform_work ..

theorem calm_work {every : ℕ} (qualifies : IdSet → Bool) (total compared : ℕ)
    (seen : List IdSet) (ps : List (IdSet × IdSet)) :
    (work qualifies total compared seen ps).Calm every
      fun x => ∃ whole, x = .ok (whole, false) := by
  induction ps generalizing compared seen with
  | nil =>
    refine (Work.calm_checkpoint _).bind (fun stopped hstopped => ?_) fun e he => by cases he
    cases hstopped
    exact ⟨_, rfl⟩
  | cons p ps ih =>
    refine (Work.calm_tick _ _).bind (fun stopped hstopped => ?_) fun e he => by cases he
    cases hstopped
    exact ih _ _

end Sweep

/-- Both passes, as work. -/
def collectWork (qualifies : IdSet → Bool) (sets : List IdSet) : Work Discoveries := do
  let (seen, stopped) ← Sweep.pairwiseWork qualifies sets
  let found := Discoveries.recordAll .outer seen .empty
  if stopped then
    Work.markIf true
    return found
  else
    let (seen, stopped) ← Sweep.pairwiseWork qualifies (sortKeys seen)
    Work.markIf stopped
    return Discoveries.recordAll .inner seen found

theorem perform_collectWork (qualifies : IdSet → Bool) (sets : List IdSet) (run : Run α) :
    (collectWork qualifies sets).perform run =
      .ok ((collectIntersections qualifies sets run).1,
        (collectIntersections qualifies sets run).2) := by
  unfold collectWork collectIntersections
  rw [Work.perform_bind_of_ok (Sweep.perform_pairwiseWork qualifies sets run)]
  dsimp only
  split
  next => rfl
  next =>
    rw [Work.perform_bind_of_ok (Sweep.perform_pairwiseWork ..)]
    dsimp only
    rw [Work.perform_bind_of_ok (Work.perform_markIf ..)]
    rfl

theorem calm_collectWork {every : ℕ} (qualifies : IdSet → Bool) (sets : List IdSet) :
    (collectWork qualifies sets).Calm every fun _ => True := by
  refine (Sweep.calm_work ..).andThen fun outer houter => ?_
  obtain ⟨seen, houter⟩ := houter
  cases houter
  refine (Sweep.calm_work ..).andThen fun inner hinner => ?_
  obtain ⟨seen', hinner⟩ := hinner
  cases hinner
  trivial

namespace Intersection

variable (limits : Limits) (frequencies : Frequencies) (members : List Record)

/-- The shared sets of the members, as work. -/
def extractWork : Work (List Intersection) := do
  let found ← collectWork (reaches (fun _ => 1) limits.minSize)
    (usableSets limits frequencies members)
  return (found.entries.map fun (key, provenance) => weigh members key provenance).mergeSort ordered

theorem perform_extractWork (run : Run α) : (extractWork limits frequencies members).perform run =
    .ok ((extract limits frequencies members run).1,
      (extract limits frequencies members run).2) :=
  Work.perform_bind_of_ok (perform_collectWork ..) _

theorem calm_extractWork {every : ℕ} :
    (extractWork limits frequencies members).Calm every fun _ => True :=
  (calm_collectWork ..).andThen fun _ _ => trivial

end Intersection

namespace Pattern

namespace Search

variable (search : Search)

/-- The candidates that are left, as work. -/
def work (total done : ℕ) (findings : Findings) : List IdSet → Work Findings
  | [] => do
    let stopped ← Work.checkpoint ⟨total, total, true⟩
    Work.markIf stopped
    return findings
  | support :: rest => do
    if ← Work.tick (done + 1) total then
      Work.markIf true
      return findings
    else work total (done + 1) (search.step findings support) rest

theorem perform_work (total done : ℕ) (findings : Findings) (candidates : List IdSet)
    (run : Run α) : (search.work total done findings candidates).perform run =
      .ok ((search.resolve total run done findings candidates).1,
        (search.resolve total run done findings candidates).2) := by
  induction candidates generalizing done findings run with
  | nil =>
    rw [work, Work.perform_bind_of_ok (Work.perform_checkpoint _ run),
      Work.perform_bind_of_ok (Work.perform_markIf ..)]
    rfl
  | cons support rest ih =>
    rw [resolve_cons, work, Work.perform_bind_of_ok (Work.perform_tick _ total run)]
    split
    next => rfl
    next => exact ih ..

theorem calm_work {every : ℕ} (total done : ℕ) (findings : Findings) (candidates : List IdSet) :
    (search.work total done findings candidates).Calm every fun _ => True := by
  induction candidates generalizing done findings with
  | nil =>
    refine (Work.calm_checkpoint _).andThen fun stopped hstopped => ?_
    cases hstopped
    trivial
  | cons support rest ih =>
    refine (Work.calm_tick _ _).andThen fun stopped hstopped => ?_
    cases hstopped
    exact ih _ _

/-- All candidates, unless the run is cancelled by now. -/
def allWork (candidates : List IdSet) : Work Findings := do
  if ← Work.poll Work.done then
    Work.markIf true
    return Ledger.empty
  else search.work candidates.length 0 .empty candidates

theorem perform_allWork (candidates : List IdSet) (run : Run α) :
    (search.allWork candidates).perform run =
      .ok ((if run.cancelled then (run.markAborted, Ledger.empty)
          else search.resolve candidates.length run 0 .empty candidates).1,
        (if run.cancelled then (run.markAborted, Ledger.empty)
          else search.resolve candidates.length run 0 .empty candidates).2) := by
  rw [allWork, Work.perform_bind_of_ok (Work.perform_poll run)]
  split
  next => rfl
  next => exact perform_work ..

theorem calm_allWork {every : ℕ} (candidates : List IdSet) :
    (search.allWork candidates).Calm every fun _ => True :=
  search.calm_work ..

end Search

/-- The patterns of some chunks, as work. -/
def detectWork (mode : Mode) (thresholds : Thresholds) (chunks : List Chunk) :
    Work (List Pattern) := do
  if chunks.isEmpty then return []
  let bodyWeight := weightIn (bodyWeights chunks).find?
  let supports := supportWeights chunks
  let supportWeight := weightIn supports.find?
  let kept ← Work.ofExcept (surviving thresholds.band (total supports.values) chunks)
  let isSupport := reaches supportWeight thresholds.minSupport
  let held := holdings kept
  let eligible := (held.map (·.1)).filter isSupport
  let found ← collectWork isSupport eligible
  let search : Search :=
    { bodyOf := bodyOf held
      isBody := reaches bodyWeight thresholds.minIntersection
      supportWeight }
  let findings ← search.allWork (sortKeys (eligible ++ found.keys))
  let patterns ← Work.ofExcept (findings.entries.mapM fun (body, support) =>
    ofFinding mode bodyWeight supportWeight body support)
  return patterns.mergeSort ordered

theorem perform_detectWork (mode : Mode) (thresholds : Thresholds) (chunks : List Chunk)
    (run : Run α) :
    (detectWork mode thresholds chunks).perform run = detect mode thresholds chunks run := by
  unfold detectWork detect
  split
  next => rfl
  next =>
    rw [Work.perform_ofExcept_bind]
    refine bind_congr fun kept => ?_
    dsimp only
    rw [Work.perform_bind_of_ok (perform_collectWork _ _ run),
      Work.perform_bind_of_ok (Search.perform_allWork ..), Work.perform_ofExcept_bind]
    rfl

theorem calm_detectWork {every : ℕ} (mode : Mode) (thresholds : Thresholds)
    (chunks : List Chunk) : (detectWork mode thresholds chunks).Calm every fun _ => True := by
  unfold detectWork
  split
  next => trivial
  next =>
    refine (Work.calm_ofExcept _).andThen fun kept _ => ?_
    refine (calm_collectWork ..).andThen fun found _ => ?_
    refine (Search.calm_allWork ..).andThen fun findings _ => ?_
    exact (Work.calm_ofExcept _).andThen fun _ _ => trivial

end Pattern

/-- Mining the members of a mode, as work. -/
def Mined.work (mode : Mode) (detection : Detection) (frequencies : Frequencies)
    (weights : Ledger String ℤ) (members : List Record) : Work Mined := do
  let limits ← Work.ofExcept (Intersection.Limits.check detection.minIntersection
    detection.minFrequency detection.maxFrequency)
  let intersections ← Intersection.extractWork limits frequencies members
  let chunks ← Work.ofExcept (chunksOf mode weights members)
  let thresholds ← Work.ofExcept detection.check
  let patterns ← Pattern.detectWork mode thresholds chunks
  return { intersections, patterns, reductionMetric := Pattern.reductionMetric patterns }

theorem Mined.perform_work (mode : Mode) (detection : Detection) (frequencies : Frequencies)
    (weights : Ledger String ℤ) (members : List Record) (run : Run α) :
    (Mined.work mode detection frequencies weights members).perform run =
      ofMembers mode detection (some frequencies) weights members run := by
  rw [ofMembers_eq, Mined.work, Work.perform_ofExcept_bind]
  refine bind_congr fun limits => ?_
  rw [Work.perform_bind_of_ok (Intersection.perform_extractWork ..), Work.perform_ofExcept_bind]
  refine bind_congr fun chunks => ?_
  rw [Work.perform_ofExcept_bind]
  refine bind_congr fun thresholds => ?_
  rw [Work.perform_bind, Pattern.perform_detectWork]
  rfl

theorem Mined.calm_work {every : ℕ} (mode : Mode) (detection : Detection)
    (frequencies : Frequencies) (weights : Ledger String ℤ) (members : List Record) :
    (Mined.work mode detection frequencies weights members).Calm every fun _ => True := by
  refine (Work.calm_ofExcept _).andThen fun limits _ => ?_
  refine (Intersection.calm_extractWork ..).andThen fun intersections _ => ?_
  refine (Work.calm_ofExcept _).andThen fun chunks _ => ?_
  refine (Work.calm_ofExcept _).andThen fun thresholds _ => ?_
  exact (Pattern.calm_detectWork ..).andThen fun patterns _ => trivial

namespace Analysis

variable (setting : Setting) (cluster : Cluster)

/-- The analysis of a cluster, as work. -/
def clusterWork : Work ClusterAnalysis := do
  let members := Mined.membersOf setting.records cluster.members.toList
  let mined ← Mined.work cluster.mode setting.detection setting.frequencies setting.weights members
  return { cluster, mined }

/-- A thread that has the run to itself analyses a cluster as ever. -/
theorem perform_clusterWork (run : AnalysisRun) :
    (clusterWork setting cluster).perform run = analyzeCluster setting cluster run := by
  rw [clusterWork, Work.perform_bind, Mined.perform_work]
  rfl

theorem calm_clusterWork {every : ℕ} : (clusterWork setting cluster).Calm every fun _ => True :=
  (Mined.calm_work ..).andThen fun _ _ => trivial

/-- Whatever happens to the run, an analysis is about its cluster. -/
theorem all_clusterWork : (clusterWork setting cluster).All fun x =>
    ∀ a, x = .ok a → a.cluster = cluster := by
  refine (Work.all_trivial _).bind (fun mined _ a ha => ?_) fun e _ a ha => ?_
  · cases ha
    rfl
  · cases ha

end Analysis

end RoleMining
