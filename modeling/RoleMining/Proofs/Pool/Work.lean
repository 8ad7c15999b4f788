import RoleMining.Proofs.Course
import RoleMining.Proofs.Stoppable

/-!
# Work on a shared run

Threads that share a run take turns on it. What a thread has left to do is a tree: each node is one
access to the run, and branches on what the access gives, so between two accesses the other threads
may do as they like. A thread that has the run to itself performs its work from end to end; the
stages of an analysis are such performances.
-/
namespace RoleMining

variable {α β γ : Type}

/-- What is left to do on a run, up to an answer. -/
inductive Work (β : Type) where
  | done (answer : β)
  | fail (failure : Failure)
  /-- Look up whether a report is due after so many units. -/
  | due (units : ℕ) (next : Bool → Work β)
  /-- Report, and hear whether the work may go on. -/
  | report (report : Report) (next : Bool → Work β)
  | cancel (next : Work β)
  /-- Look up whether the run is cancelled. -/
  | poll (next : Bool → Work β)
  | mark (next : Work β)

namespace Run

def tell (r : Run α) (report : Report) : Run α := { r with calls := r.calls ++ [report] }

/-- The reporter's answer to a further report. -/
def allows (r : Run α) (report : Report) : Bool := r.reporter (r.calls ++ [report])

/-- A checkpoint is a report, and a cancellation when it is refused. -/
theorem checkpoint_eq (r : Run α) (report : Report) : r.checkpoint report =
    if r.allows report then r.tell report else (r.tell report).cancel := by
  unfold checkpoint tell allows
  split
  next hgo => simp [hgo]
  next hno => simp [hno, cancel]

theorem Undisturbed.allows {r : Run α} (h : r.Undisturbed) (report : Report) :
    r.allows report = true :=
  h.lenient _

theorem Undisturbed.tell {r : Run α} (h : r.Undisturbed) (report : Report) :
    (r.tell report).Undisturbed :=
  ⟨⟨h.running, h.lenient⟩, h.complete⟩

end Run

namespace Work

def bind : Work β → (β → Work γ) → Work γ
  | done b, f => f b
  | fail e, _ => fail e
  | due units next, f => due units fun yes => (next yes).bind f
  | report r next, f => report r fun go => (next go).bind f
  | cancel next, f => cancel (next.bind f)
  | poll next, f => poll fun stopped => (next stopped).bind f
  | mark next, f => mark (next.bind f)

instance : Monad Work where
  pure := done
  bind := bind

/-- A computation that the run has no part in. -/
def ofExcept : Except Failure β → Work β
  | .ok b => done b
  | .error e => fail e

/-- Report, cancel the run when the report is refused, and look up whether the run is cancelled. -/
def checkpoint (r : Report) : Work Bool :=
  report r fun go => if go then poll done else cancel (poll done)

/-- A checkpoint after `units` if a report is due then; whether to stop. -/
def tick (units total : ℕ) : Work Bool :=
  due units fun yes => if yes then checkpoint ⟨units, total, false⟩ else done false

/-- Note the end of a stage that was stopped. -/
def markIf (stopped : Bool) : Work Unit := if stopped then mark (done ()) else done ()

/-- One access to the run. -/
def step : Work β → Run α → Option (Run α × Work β)
  | done _, _ => none
  | fail _, _ => none
  | due units next, run => some (run, next (run.isDue units))
  | report r next, run => some (run.tell r, next (run.allows r))
  | cancel next, run => some (run.cancel, next)
  | poll next, run => some (run, next run.cancelled)
  | mark next, run => some (run.markAborted, next)

/-- All of the work, by a thread that has the run to itself. -/
def perform : Work β → Run α → Except Failure (Run α × β)
  | done b, run => .ok (run, b)
  | fail e, _ => .error e
  | due units next, run => (next (run.isDue units)).perform run
  | report r next, run => (next (run.allows r)).perform (run.tell r)
  | cancel next, run => next.perform run.cancel
  | poll next, run => (next run.cancelled).perform run
  | mark next, run => next.perform run.markAborted

/-- The most accesses that are left. -/
def depth : Work β → ℕ
  | done _ => 0
  | fail _ => 0
  | due _ next => max (next true).depth (next false).depth + 1
  | report _ next => max (next true).depth (next false).depth + 1
  | cancel next => next.depth + 1
  | poll next => max (next true).depth (next false).depth + 1
  | mark next => next.depth + 1

section Steps

variable {w w' : Work β} {run run' : Run α}

/-- A performance takes one step after the other. -/
theorem perform_of_step (h : w.step run = some (run', w')) : w.perform run = w'.perform run' := by
  cases w <;> cases h <;> rfl

theorem exists_step (w : Work β) (run : Run α) :
    (∃ b, w = done b) ∨ (∃ e, w = fail e) ∨ ∃ run' w', w.step run = some (run', w') := by
  cases w with
  | done b => exact .inl ⟨b, rfl⟩
  | fail e => exact .inr (.inl ⟨e, rfl⟩)
  | due => exact .inr (.inr ⟨_, _, rfl⟩)
  | report => exact .inr (.inr ⟨_, _, rfl⟩)
  | cancel => exact .inr (.inr ⟨_, _, rfl⟩)
  | poll => exact .inr (.inr ⟨_, _, rfl⟩)
  | mark => exact .inr (.inr ⟨_, _, rfl⟩)

theorem depth_next_lt (next : Bool → Work β) (b : Bool) :
    (next b).depth < max (next true).depth (next false).depth + 1 := by
  cases b <;> omega

theorem depth_of_step (h : w.step run = some (run', w')) : w'.depth < w.depth := by
  cases w <;> cases h
  case due => exact depth_next_lt ..
  case report => exact depth_next_lt ..
  case cancel => exact Nat.lt_succ_self _
  case poll => exact depth_next_lt ..
  case mark => exact Nat.lt_succ_self _

/-- No access collects an item, and none takes back a cancellation or a mark. -/
structure Keeps (run run' : Run α) : Prop where
  results : run'.results = run.results
  pollEvery : run'.pollEvery = run.pollEvery
  cancelled : run.cancelled = true → run'.cancelled = true
  aborted : run.aborted = true → run'.aborted = true

theorem Keeps.refl (run : Run α) : Keeps run run := ⟨rfl, rfl, id, id⟩

theorem Keeps.trans {run'' : Run α} (h : Keeps run run') (h' : Keeps run' run'') :
    Keeps run run'' :=
  ⟨h'.results.trans h.results, h'.pollEvery.trans h.pollEvery, h'.cancelled ∘ h.cancelled,
    h'.aborted ∘ h.aborted⟩

theorem keeps_of_step (h : w.step run = some (run', w')) : Keeps run run' := by
  cases w <;> cases h
  case due => exact .refl run
  case report => exact ⟨rfl, rfl, id, id⟩
  case cancel => exact ⟨rfl, rfl, fun _ => rfl, id⟩
  case poll => exact .refl run
  case mark => exact ⟨rfl, rfl, id, fun _ => rfl⟩

end Steps

/-! ### Performances of composed work -/

section Perform

variable {run : Run α}

theorem perform_bind (w : Work β) (f : β → Work γ) (run : Run α) :
    (w >>= f).perform run = w.perform run >>= fun x => (f x.2).perform x.1 := by
  change (w.bind f).perform run = _
  induction w generalizing run with
  | done b => rfl
  | fail e => rfl
  | due units next ih => exact ih ..
  | report r next ih => exact ih ..
  | cancel next ih => exact ih ..
  | poll next ih => exact ih ..
  | mark next ih => exact ih ..

/-- The second part starts where the first one has ended. -/
theorem perform_bind_of_ok {w : Work β} {after : Run α} {b : β}
    (h : w.perform run = .ok (after, b)) (f : β → Work γ) :
    (w >>= f).perform run = (f b).perform after := by
  rw [perform_bind, h]
  rfl

theorem perform_ofExcept_bind (x : Except Failure β) (f : β → Work γ) (run : Run α) :
    (ofExcept x >>= f).perform run = x >>= fun b => (f b).perform run := by
  cases x <;> rfl

theorem perform_poll (run : Run α) :
    (poll done).perform run = .ok (run, run.cancelled) := rfl

theorem perform_checkpoint (r : Report) (run : Run α) :
    (checkpoint r).perform run = .ok (run.checkpoint r, (run.checkpoint r).cancelled) := by
  rw [Run.checkpoint_eq]
  unfold checkpoint perform
  split
  next hgo =>
    simp only [hgo, if_true]
    rfl
  next hno =>
    simp only [hno]
    rfl

theorem perform_tick (units total : ℕ) (run : Run α) :
    (tick units total).perform run =
      .ok (run.tick units total, run.isDue units && (run.tick units total).cancelled) := by
  unfold tick perform Run.tick
  split
  next hdue =>
    rw [hdue, Bool.true_and]
    exact perform_checkpoint _ run
  next hdue =>
    rw [eq_false_of_ne_true hdue, Bool.false_and]
    rfl

theorem perform_markIf (stopped : Bool) (run : Run α) :
    (markIf stopped).perform run = .ok (if stopped then run.markAborted else run, ()) := by
  cases stopped <;> rfl

theorem keeps_of_perform {w : Work β} {after : Run α} {b : β}
    (h : w.perform run = .ok (after, b)) : Keeps run after := by
  induction w generalizing run with
  | done =>
    cases h
    exact .refl _
  | fail => cases h
  | due units next ih => exact ih _ h
  | report r next ih => exact (keeps_of_step (w := report r next) rfl).trans (ih _ h)
  | cancel next ih => exact (keeps_of_step (w := cancel next) rfl).trans (ih h)
  | poll next ih => exact ih _ h
  | mark next ih => exact (keeps_of_step (w := mark next) rfl).trans (ih h)

end Perform

/-! ### All answers -/

/-- Whatever the accesses give, the outcome has a property. -/
def All (P : Except Failure β → Prop) : Work β → Prop
  | done b => P (.ok b)
  | fail e => P (.error e)
  | due _ next => ∀ yes, (next yes).All P
  | report _ next => ∀ go, (next go).All P
  | cancel next => next.All P
  | poll next => ∀ stopped, (next stopped).All P
  | mark next => next.All P

section All

variable {P Q : Except Failure β → Prop} {w w' : Work β}

theorem All.of_step {run run' : Run α} (h : w.All P) (hstep : w.step run = some (run', w')) :
    w'.All P := by
  cases w <;> cases hstep
  case due => exact h _
  case report => exact h _
  case cancel => exact h
  case poll => exact h _
  case mark => exact h

theorem All.imp (h : ∀ x, P x → Q x) (hw : w.All P) : w.All Q := by
  induction w with
  | done => exact h _ hw
  | fail => exact h _ hw
  | due units next ih => exact fun yes => ih yes (hw yes)
  | report r next ih => exact fun go => ih go (hw go)
  | cancel next ih => exact ih hw
  | poll next ih => exact fun stopped => ih stopped (hw stopped)
  | mark next ih => exact ih hw

theorem All.bind {R : Except Failure γ → Prop} {f : β → Work γ} (hw : w.All P)
    (hok : ∀ b, P (.ok b) → (f b).All R) (herror : ∀ e, P (.error e) → R (.error e)) :
    (w >>= f).All R := by
  change (w.bind f).All R
  induction w with
  | done b => exact hok b hw
  | fail e => exact herror e hw
  | due units next ih => exact fun yes => ih yes (hw yes)
  | report r next ih => exact fun go => ih go (hw go)
  | cancel next ih => exact ih hw
  | poll next ih => exact fun stopped => ih stopped (hw stopped)
  | mark next ih => exact ih hw

theorem All.and (h : w.All P) (h' : w.All Q) : w.All fun x => P x ∧ Q x := by
  induction w with
  | done => exact ⟨h, h'⟩
  | fail => exact ⟨h, h'⟩
  | due units next ih => exact fun yes => ih yes (h yes) (h' yes)
  | report r next ih => exact fun go => ih go (h go) (h' go)
  | cancel next ih => exact ih h h'
  | poll next ih => exact fun stopped => ih stopped (h stopped) (h' stopped)
  | mark next ih => exact ih h h'

/-- At a checkpoint there is a stop or none. -/
theorem all_checkpoint (r : Report) : (checkpoint r).All fun x => ∃ stopped, x = .ok stopped := by
  intro go
  cases go <;> exact fun stopped => ⟨stopped, rfl⟩

theorem all_tick (units total : ℕ) :
    (tick units total).All fun x => ∃ stopped, x = .ok stopped := by
  intro yes
  cases yes
  · exact ⟨false, rfl⟩
  · exact all_checkpoint _

theorem all_markIf (stopped : Bool) : (markIf stopped).All fun x => x = .ok () := by
  cases stopped <;> rfl

theorem all_trivial (w : Work β) : w.All fun _ => True := by
  induction w with
  | done => trivial
  | fail => trivial
  | due units next ih => exact ih
  | report r next ih => exact ih
  | cancel next ih => exact ih
  | poll next ih => exact ih
  | mark next ih => exact ih

end All

/-! ### Work that nothing disturbs -/

/-- Unless it is stopped, the work does not cancel or mark the run, and its outcome has a
property. -/
def Calm (every : ℕ) (P : Except Failure β → Prop) : Work β → Prop
  | done b => P (.ok b)
  | fail e => P (.error e)
  | due units next => (next (units % every == 0)).Calm every P
  | report _ next => (next true).Calm every P
  | cancel _ => False
  | poll next => (next false).Calm every P
  | mark _ => False

/-- The outcome of work that is not stopped. -/
def outcome (every : ℕ) : Work β → Except Failure β
  | done b => .ok b
  | fail e => .error e
  | due units next => (next (units % every == 0)).outcome every
  | report _ next => (next true).outcome every
  | cancel next => next.outcome every
  | poll next => (next false).outcome every
  | mark next => next.outcome every

section Calm

variable {every : ℕ} {P : Except Failure β → Prop} {w w' : Work β} {run run' : Run α}

theorem Calm.bind {R : Except Failure γ → Prop} {f : β → Work γ} (hw : w.Calm every P)
    (hok : ∀ b, P (.ok b) → (f b).Calm every R) (herror : ∀ e, P (.error e) → R (.error e)) :
    (w >>= f).Calm every R := by
  change (w.bind f).Calm every R
  induction w with
  | done b => exact hok b hw
  | fail e => exact herror e hw
  | due units next ih => exact ih _ hw
  | report r next ih => exact ih _ hw
  | cancel => cases hw
  | poll next ih => exact ih _ hw
  | mark => cases hw

theorem Calm.outcome_eq (hw : w.Calm every P) :
    w.Calm every fun x => x = w.outcome every := by
  induction w with
  | done b => rfl
  | fail e => rfl
  | due units next ih => exact ih _ hw
  | report r next ih => exact ih _ hw
  | cancel => cases hw
  | poll next ih => exact ih _ hw
  | mark => cases hw

/-- Calm work with more calm work after it. -/
theorem Calm.andThen {f : β → Work γ} (hw : w.Calm every P)
    (hf : ∀ b, P (.ok b) → (f b).Calm every fun _ => True) :
    (w >>= f).Calm every fun _ => True :=
  hw.bind hf fun _ _ => trivial

theorem calm_ofExcept (x : Except Failure β) : (ofExcept x).Calm every fun _ => True := by
  cases x <;> trivial

/-- Nothing stops at a checkpoint. -/
theorem calm_checkpoint (r : Report) : (checkpoint r).Calm every fun x => x = .ok false := rfl

theorem calm_tick (units total : ℕ) : (tick units total).Calm every fun x => x = .ok false := by
  unfold tick Calm
  cases units % every == 0 <;> rfl

/-- Calm work leaves an undisturbed run undisturbed. -/
theorem Calm.of_step (hw : w.Calm run.pollEvery P) (hrun : run.Undisturbed)
    (hstep : w.step run = some (run', w')) : run'.Undisturbed ∧ w'.Calm run.pollEvery P := by
  cases w <;> cases hstep
  case due => exact ⟨hrun, hw⟩
  case report r next =>
    rw [hrun.allows r]
    exact ⟨hrun.tell r, hw⟩
  case cancel => cases hw
  case poll =>
    rw [hrun.running]
    exact ⟨hrun, hw⟩
  case mark => cases hw

theorem Calm.exists_perform_eq (hw : w.Calm run.pollEvery P) (hrun : run.Undisturbed) :
    ∃ (after : Run α) (x : Except Failure β), after.Undisturbed ∧ P x ∧
      w.perform run = x >>= fun b => .ok (after, b) := by
  induction w generalizing run with
  | done b => exact ⟨run, .ok b, hrun, hw, rfl⟩
  | fail e => exact ⟨run, .error e, hrun, hw, rfl⟩
  | due units next ih => exact ih _ hw hrun
  | report r next ih =>
    obtain ⟨hnext, hcalm⟩ := hw.of_step hrun rfl
    exact ih _ hcalm hnext
  | cancel => cases hw
  | poll next ih =>
    obtain ⟨hnext, hcalm⟩ := hw.of_step hrun rfl
    exact ih _ hcalm hnext
  | mark => cases hw

end Calm

end Work

end RoleMining
