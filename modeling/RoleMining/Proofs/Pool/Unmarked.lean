import RoleMining.Proofs.Pool.Undisturbed

/-!
# A run that is not marked

A thread may hear of a stop at any of its accesses, from its own reports or from what the other
threads have done. Whatever it hears, it marks the run as aborted, or its answer is the one that it
would have come to undisturbed. So a pool that returns on a run without a mark has the answers of
the loop on an undisturbed run, even if a stop was asked for.
-/
namespace RoleMining

variable {α β γ : Type}

namespace Work

/-- Unless it marks the run, the work comes to an outcome with a property. -/
def UnlessMarked (every : ℕ) (P : Except Failure β → Prop) : Work β → Prop
  | done b => P (.ok b)
  | fail e => P (.error e)
  | due units next => (next (units % every == 0)).UnlessMarked every P
  | report _ next => ∀ go, (next go).UnlessMarked every P
  | cancel next => next.UnlessMarked every P
  | poll next => ∀ stopped, (next stopped).UnlessMarked every P
  | mark _ => True

variable {every : ℕ} {P Q : Except Failure β → Prop} {w w' : Work β}

theorem unlessMarked_of_all (h : w.All P) : w.UnlessMarked every P := by
  induction w with
  | done => exact h
  | fail => exact h
  | due units next ih => exact ih _ (h _)
  | report r next ih => exact fun go => ih go (h go)
  | cancel next ih => exact ih h
  | poll next ih => exact fun stopped => ih stopped (h stopped)
  | mark => trivial

theorem UnlessMarked.imp (h : ∀ x, P x → Q x) (hw : w.UnlessMarked every P) :
    w.UnlessMarked every Q := by
  induction w with
  | done => exact h _ hw
  | fail => exact h _ hw
  | due units next ih => exact ih _ hw
  | report r next ih => exact fun go => ih go (hw go)
  | cancel next ih => exact ih hw
  | poll next ih => exact fun stopped => ih stopped (hw stopped)
  | mark => trivial

theorem UnlessMarked.bind {R : Except Failure γ → Prop} {f : β → Work γ}
    (hw : w.UnlessMarked every P) (hok : ∀ b, P (.ok b) → (f b).UnlessMarked every R)
    (herror : ∀ e, P (.error e) → R (.error e)) : (w >>= f).UnlessMarked every R := by
  change (w.bind f).UnlessMarked every R
  induction w with
  | done b => exact hok b hw
  | fail e => exact herror e hw
  | due units next ih => exact ih _ hw
  | report r next ih => exact fun go => ih go (hw go)
  | cancel next ih => exact ih hw
  | poll next ih => exact fun stopped => ih stopped (hw stopped)
  | mark => trivial

/-- After a step the run is marked, or the work that is left is bound for the same outcome. -/
theorem UnlessMarked.of_step {run run' : Run α} (h : w.UnlessMarked run.pollEvery P)
    (hstep : w.step run = some (run', w')) :
    run'.aborted = true ∨ w'.UnlessMarked run.pollEvery P := by
  cases w <;> cases hstep
  case due => exact .inr h
  case report => exact .inr (h _)
  case cancel => exact .inr h
  case poll => exact .inr (h _)
  case mark => exact .inl rfl

/-! ### Outcomes of composed work -/

theorem outcome_bind (every : ℕ) (w : Work β) (f : β → Work γ) :
    (w >>= f).outcome every = w.outcome every >>= fun b => (f b).outcome every := by
  change (w.bind f).outcome every = _
  induction w with
  | done b => rfl
  | fail e => rfl
  | due units next ih => exact ih _
  | report r next ih => exact ih _
  | cancel next ih => exact ih
  | poll next ih => exact ih _
  | mark next ih => exact ih

theorem outcome_bind_of_ok {b : β} (h : w.outcome every = .ok b) (f : β → Work γ) :
    (w >>= f).outcome every = (f b).outcome every := by
  rw [outcome_bind, h]
  rfl

/-- The outcome of calm work has the property that the work is calm for. -/
theorem Calm.outcome (h : w.Calm every P) : P (w.outcome every) := by
  induction w with
  | done => exact h
  | fail => exact h
  | due units next ih => exact ih _ h
  | report r next ih => exact ih _ h
  | cancel => cases h
  | poll next ih => exact ih _ h
  | mark => cases h

/-- Unless it marks the run, the work comes to what it comes to undisturbed. -/
def Faithful (every : ℕ) (w : Work β) : Prop := w.UnlessMarked every fun x => x = w.outcome every

/-- The work marks the run in the end. -/
def Marks (every : ℕ) (w : Work β) : Prop := w.UnlessMarked every fun _ => False

theorem Faithful.bind {f : β → Work γ} (hw : w.Faithful every)
    (hf : ∀ b, w.outcome every = .ok b → (f b).Faithful every) : (w >>= f).Faithful every := by
  refine UnlessMarked.bind hw (fun b hb => ?_) fun e he => ?_
  · rw [outcome_bind_of_ok hb.symm]
    exact hf b hb.symm
  · rw [outcome_bind, ← he]
    rfl

theorem faithful_ofExcept (x : Except Failure β) : (ofExcept x).Faithful every := by
  cases x <;> rfl

/-- A stop may be heard at a checkpoint, and leads to a mark. -/
theorem faithful_check {check : Work Bool} {f : Bool → Work γ}
    (hcheck : check.All fun x => ∃ stopped, x = .ok stopped)
    (hcalm : check.Calm every fun x => x = .ok false) (hstopped : (f true).Marks every)
    (hgoing : (f false).Faithful every) : (check >>= f).Faithful every := by
  unfold Faithful
  rw [outcome_bind_of_ok hcalm.outcome]
  refine (unlessMarked_of_all hcheck).bind (fun stopped _ => ?_) fun e he => by simp at he
  cases stopped with
  | true => exact hstopped.imp fun _ => False.elim
  | false => exact hgoing

end Work

/-! ### The stages of an analysis -/

namespace Sweep

/-- A pass says that it was stopped, or has seen what it sees undisturbed. -/
theorem unlessMarked_work {every : ℕ} (qualifies : IdSet → Bool) (total compared : ℕ)
    (seen : List IdSet) (ps : List (IdSet × IdSet)) :
    (work qualifies total compared seen ps).UnlessMarked every fun x =>
      (∃ found, x = .ok (found, true)) ∨
        x = (work qualifies total compared seen ps).outcome every := by
  induction ps generalizing compared seen with
  | nil =>
    refine (Work.unlessMarked_of_all (Work.all_checkpoint _)).bind (fun stopped _ => ?_)
      fun e he => by simp at he
    cases stopped with
    | true => exact .inl ⟨_, rfl⟩
    | false => exact .inr rfl
  | cons p ps ih =>
    obtain ⟨a, b⟩ := p
    rw [work, Work.outcome_bind_of_ok (Work.calm_tick (compared + 1) total).outcome]
    refine (Work.unlessMarked_of_all (Work.all_tick _ _)).bind (fun stopped _ => ?_)
      fun e he => by simp at he
    cases stopped with
    | true => exact .inl ⟨_, rfl⟩
    | false => exact ih _ _

end Sweep

/-- A pass, and what comes after it: after a stop a mark. -/
theorem faithful_pairwiseWork_bind {every : ℕ} {qualifies : IdSet → Bool} {sets : List IdSet}
    {f : List IdSet × Bool → Work γ} (hstopped : ∀ seen, (f (seen, true)).Marks every)
    (hgoing : ∀ seen, (f (seen, false)).Faithful every) :
    (Sweep.pairwiseWork qualifies sets >>= f).Faithful every := by
  obtain ⟨whole, houtcome⟩ : ∃ whole, (Sweep.pairwiseWork qualifies sets).outcome every =
      .ok (whole, false) := (Sweep.calm_work ..).outcome
  unfold Work.Faithful
  rw [Work.outcome_bind_of_ok houtcome]
  refine (Sweep.unlessMarked_work ..).bind (fun b hb => ?_) fun e he => ?_
  · rcases hb with ⟨found, hb⟩ | hb
    · cases hb
      exact (hstopped found).imp fun _ => False.elim
    · cases hb.trans houtcome
      exact hgoing whole
  · rcases he with ⟨found, he⟩ | he
    · cases he
    · cases he.trans houtcome

theorem faithful_collectWork {every : ℕ} (qualifies : IdSet → Bool) (sets : List IdSet) :
    (collectWork qualifies sets).Faithful every := by
  refine faithful_pairwiseWork_bind (fun _ => trivial) fun seen => ?_
  exact faithful_pairwiseWork_bind (fun _ => trivial) fun _ => rfl

namespace Pattern

namespace Search

variable (search : Search)

theorem faithful_work {every : ℕ} (total done : ℕ) (findings : Findings)
    (candidates : List IdSet) : (search.work total done findings candidates).Faithful every := by
  induction candidates generalizing done findings with
  | nil => exact Work.faithful_check (Work.all_checkpoint _) (Work.calm_checkpoint _) trivial rfl
  | cons support rest ih =>
    exact Work.faithful_check (Work.all_tick _ _) (Work.calm_tick _ _) trivial (ih _ _)

theorem faithful_allWork {every : ℕ} (candidates : List IdSet) :
    (search.allWork candidates).Faithful every := by
  intro stopped
  cases stopped with
  | true => trivial
  | false => exact search.faithful_work _ _ _ _

end Search

theorem faithful_detectWork {every : ℕ} (mode : Mode) (thresholds : Thresholds)
    (chunks : List Chunk) : (detectWork mode thresholds chunks).Faithful every := by
  unfold detectWork
  split
  next => rfl
  next =>
    refine (Work.faithful_ofExcept _).bind fun kept _ => ?_
    refine Work.Faithful.bind (faithful_collectWork ..) fun found _ => ?_
    refine Work.Faithful.bind (Search.faithful_allWork _ _) fun findings _ => ?_
    exact Work.Faithful.bind (Work.faithful_ofExcept _) fun _ _ => rfl

end Pattern

theorem Intersection.faithful_extractWork {every : ℕ} (limits : Limits) (frequencies : Frequencies)
    (members : List Record) : (extractWork limits frequencies members).Faithful every :=
  Work.Faithful.bind (faithful_collectWork ..) fun _ _ => rfl

theorem Mined.faithful_work {every : ℕ} (mode : Mode) (detection : Detection)
    (frequencies : Frequencies) (weights : Ledger String ℤ) (members : List Record) :
    (Mined.work mode detection frequencies weights members).Faithful every := by
  refine Work.Faithful.bind (Work.faithful_ofExcept _) fun limits _ => ?_
  refine Work.Faithful.bind (Intersection.faithful_extractWork ..) fun intersections _ => ?_
  refine Work.Faithful.bind (Work.faithful_ofExcept _) fun chunks _ => ?_
  refine Work.Faithful.bind (Work.faithful_ofExcept _) fun thresholds _ => ?_
  exact Work.Faithful.bind (Pattern.faithful_detectWork ..) fun _ _ => rfl

namespace Analysis

theorem faithful_clusterWork {every : ℕ} (setting : Setting) (cluster : Cluster) :
    (clusterWork setting cluster).Faithful every :=
  Work.Faithful.bind (Mined.faithful_work ..) fun _ _ => rfl

/-! ### The threads of a pool -/

variable {setting : Setting} {clusters : List Cluster} {run run' base : AnalysisRun}

namespace Task

variable {work : Work ClusterAnalysis} {t t' : Task} {every : ℕ}
variable {x : Except Failure ClusterAnalysis}

/-- What the task comes to is a certain outcome, unless it marks the run. -/
def Faithful (every : ℕ) (x : Except Failure ClusterAnalysis) : Task → Prop
  | working w => w.UnlessMarked every fun y => y = x
  | analysed a => x = .ok a
  | finished (.ok (some a)) => x = .ok a
  | _ => True

theorem Step.faithful (h : Step work run t run' t')
    (hwork : work.UnlessMarked run.pollEvery fun y => y = x) (ht : t.Faithful run.pollEvery x) :
    run'.aborted = true ∨ t'.Faithful run.pollEvery x := by
  cases h with
  | skip => exact .inr trivial
  | begin => exact .inr hwork
  | access hstep => exact Work.UnlessMarked.of_step ht hstep
  | answer => exact .inr (Eq.symm ht)
  | fail => exact .inr trivial
  | collect => exact .inr ht

end Task

namespace Pool

variable {workers : Number} {s s' : Pool clusters} {i : Fin clusters.length} {task : Task}

/-- What holds of a pool on any run: until it is marked, each analysis that has come of a task is
the undisturbed one. -/
structure Faithful (setting : Setting) (base : AnalysisRun) (s : Pool clusters) : Prop where
  pollEvery : s.run.pollEvery = base.pollEvery
  tasks : s.run.aborted = true ∨
    ∀ i, (s.tasks i).Faithful base.pollEvery (expected setting base.pollEvery (clusters.get i))

theorem faithful_initial : (initial clusters base).Faithful setting base where
  pollEvery := rfl
  tasks := .inr fun _ => trivial

/-- The main thread goes on, and may mark the run. -/
theorem Faithful.goTo (h : s.Faithful setting base) (hgrows : Grows s.run run)
    (hevery : run.pollEvery = s.run.pollEvery)
    {taken : Finset (Fin clusters.length)} {finished : Ledger ℕ ClusterAnalysis}
    {main : Main clusters.length} :
    ({ s with run, taken, finished, main } : Pool clusters).Faithful setting base where
  pollEvery := hevery.trans h.pollEvery
  tasks := h.tasks.imp_left hgrows.aborted

/-- A task becomes another one, with the undisturbed outcome or with a mark. -/
theorem Faithful.update (h : s.Faithful setting base) (hgrows : Grows s.run run)
    (hevery : run.pollEvery = s.run.pollEvery)
    (htask : (s.tasks i).Faithful base.pollEvery
        (expected setting base.pollEvery (clusters.get i)) →
      run.aborted = true ∨
        task.Faithful base.pollEvery (expected setting base.pollEvery (clusters.get i)))
    {main : Main clusters.length} :
    ({ s.setTask i task with run, main } : Pool clusters).Faithful setting base where
  pollEvery := hevery.trans h.pollEvery
  tasks := by
    rcases h.tasks with hmarked | hfaithful
    · exact .inl (hgrows.aborted hmarked)
    · refine (htask (hfaithful i)).imp_right fun hi j => ?_
      by_cases hj : j = i
      · subst hj
        exact (tasks_setTask_self s j task).symm ▸ hi
      · exact (tasks_setTask_of_ne hj).symm ▸ hfaithful j

theorem Faithful.step (h : s.Faithful setting base) (hstep : Step setting workers s s') :
    s'.Faithful setting base := by
  cases hstep with
  | @start i =>
    have hstarted : Task.Faithful base.pollEvery
      (expected setting base.pollEvery (clusters.get i)) .started := trivial
    exact h.update (.refl _) rfl fun _ => .inr hstarted
  | @act i run task hstep =>
    refine h.update hstep.grows hstep.collected.1 fun htask => ?_
    have hwork : (clusterWork setting (clusters.get i)).Faithful s.run.pollEvery :=
      faithful_clusterWork setting (clusters.get i)
    rw [← h.pollEvery] at htask ⊢
    exact hstep.faithful hwork htask
  | take => exact h.goTo (.refl _) rfl
  | raise => exact h.goTo (.refl _) rfl
  | report => exact h.goTo (grows_tell s.run s.progress) rfl
  | cancel => exact h.goTo (grows_cancel s.run) rfl
  | goOn => exact h.goTo (.refl _) rfl
  | stop => exact h.goTo (.refl _) rfl
  | @drop i =>
    have hdropped : Task.Faithful base.pollEvery
      (expected setting base.pollEvery (clusters.get i)) .dropped := trivial
    exact h.update (.refl _) rfl fun _ => .inr hdropped
  | pass => exact h.goTo (.refl _) rfl
  | settle => exact h.goTo (.refl _) rfl
  | close =>
    unfold close
    split
    next => exact h.goTo (grows_markAborted s.run) rfl
    next => exact h.goTo (.refl _) rfl
  | finish => exact h.goTo (.refl _) rfl
  | fail => exact h.goTo (.refl _) rfl

theorem faithful_of_reached (h : Reached setting workers base s) : s.Faithful setting base := by
  induction h with
  | refl => exact faithful_initial
  | tail _ hstep ih => exact ih.step hstep

/-- A pool that returns without a mark has the undisturbed analyses. -/
theorem Faithful.returned (h : s.Faithful setting base) (hids : (clusters.map (·.id)).Nodup)
    {P : Fin clusters.length → Except Failure ClusterAnalysis → Prop} (hs : s.Sound P)
    {analyses : List ClusterAnalysis} (hmain : s.main = .returned analyses)
    (hcomplete : s.run.aborted = false) :
    clusters.mapM (expected setting base.pollEvery) = .ok analyses := by
  have hfaithful := h.tasks.resolve_left (by simp [hcomplete])
  refine hs.mapM_eq_ok hids hmain hcomplete fun i a hresult => ?_
  have htask := hfaithful i
  rw [hresult] at htask
  exact htask

end Pool

end Analysis

end RoleMining
