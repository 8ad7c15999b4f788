import RoleMining.Proofs.Course
import RoleMining.Proofs.Results

/-!
# Stoppable work

Work on a run may be cut short by a stop. It is stoppable when it notes the stop, and when a stop is
all that can set its answer apart from that of a run that nothing disturbs. Stages that are
stoppable make up work that is, with checkpoints between them or without. So do stages that never
fail.
-/
namespace RoleMining

variable {α β γ δ : Type}

namespace Run

variable {r after : Run α}

/-- Nothing has stopped the run so far, and nothing will. -/
structure Undisturbed (r : Run α) : Prop extends r.Unhindered where
  complete : r.aborted = false

theorem undisturbed_unwatched : (unwatched : Run α).Undisturbed := ⟨unhindered_unwatched, rfl⟩

theorem Continues.undisturbed (h : r.Continues after) (hr : r.Undisturbed) : after.Undisturbed :=
  have hafter := h.unhindered hr.toUnhindered
  ⟨hafter, h.complete hr.complete hafter.running⟩

end Run

/-- Work behind a checkpoint at which a stop leaves an answer of its own. -/
def Run.gated (report : Report) (early : β) (work : Run α → Except Failure (Run α × β))
    (run : Run α) : Except Failure (Run α × β) :=
  if (run.checkpoint report).cancelled then .ok ((run.checkpoint report).markAborted, early)
  else work (run.checkpoint report)

/-- Work that a stop may cut short, but not distort. -/
structure Stoppable (work : Run α → Except Failure (Run α × β)) : Prop where
  continues {run after : Run α} {b : β} : work run = .ok (after, b) → run.Continues after
  told {run after : Run α} {b : β} : work run = .ok (after, b) → run.Told → after.Told
  /-- What was not stopped has the answer of a run that nothing disturbs. -/
  agrees {run full after : Run α} {b : β} : full.Undisturbed → work run = .ok (after, b) →
    after.aborted = false → ∃ reached, work full = .ok (reached, b)
  /-- A stop is no reason to fail. -/
  returns {run full reached : Run α} {b : β} : full.Undisturbed → work full = .ok (reached, b) →
    ∃ after b', work run = .ok (after, b')

namespace Stoppable

variable {work : Run α → Except Failure (Run α × β)}

theorem pure (b : β) : Stoppable fun run : Run α => .ok (run, b) where
  continues := by
    intro run after b' h
    cases h
    exact .refl run
  told := by
    intro run after b' h htold
    cases h
    exact htold
  agrees := by
    intro run full after b' _ h _
    cases h
    exact ⟨full, rfl⟩
  returns := fun _ _ => ⟨_, _, rfl⟩

/-- Some computation comes first that the run has no part in. -/
theorem afterComputing {x : Except Failure γ} {work : γ → Run α → Except Failure (Run α × β)}
    (h : ∀ c, x = .ok c → Stoppable (work c)) : Stoppable fun run => x >>= fun c => work c run := by
  cases x with
  | error failure => constructor <;> (intros; contradiction)
  | ok c => exact h c rfl

/-- Two stages, the second of which takes nothing but the run from the first. -/
theorem both {second : Run α → Except Failure (Run α × γ)} (h : Stoppable work)
    (h' : Stoppable second) (f : β → γ → δ) : Stoppable fun run =>
      work run >>= fun x => second x.1 >>= fun y => .ok (y.1, f x.2 y.2) where
  continues := by
    intro run after d hok
    obtain ⟨⟨mid, b⟩, hfirst, hok⟩ := bind_eq_ok_iff.1 hok
    obtain ⟨⟨reached, c⟩, hsecond, hok⟩ := bind_eq_ok_iff.1 hok
    cases hok
    exact (h.continues hfirst).trans (h'.continues hsecond)
  told := by
    intro run after d hok htold
    obtain ⟨⟨mid, b⟩, hfirst, hok⟩ := bind_eq_ok_iff.1 hok
    obtain ⟨⟨reached, c⟩, hsecond, hok⟩ := bind_eq_ok_iff.1 hok
    cases hok
    exact h'.told hsecond (h.told hfirst htold)
  agrees := by
    intro run full after d hfull hok hafter
    obtain ⟨⟨mid, b⟩, hfirst, hok⟩ := bind_eq_ok_iff.1 hok
    obtain ⟨⟨last, c⟩, hsecond, hok⟩ := bind_eq_ok_iff.1 hok
    cases hok
    obtain ⟨fullMid, hfullFirst⟩ :=
      h.agrees hfull hfirst ((h'.continues hsecond).not_aborted hafter)
    obtain ⟨fullLast, hfullSecond⟩ :=
      h'.agrees ((h.continues hfullFirst).undisturbed hfull) hsecond hafter
    exact ⟨fullLast, bind_eq_ok_iff.2 ⟨_, hfullFirst, bind_eq_ok_iff.2 ⟨_, hfullSecond, rfl⟩⟩⟩
  returns := by
    intro run full reached d hfull hok
    obtain ⟨⟨fullMid, b⟩, hfullFirst, hok⟩ := bind_eq_ok_iff.1 hok
    obtain ⟨⟨fullLast, c⟩, hfullSecond, hok⟩ := bind_eq_ok_iff.1 hok
    cases hok
    have hfullMid := (h.continues hfullFirst).undisturbed hfull
    obtain ⟨mid, b', hfirst⟩ : ∃ mid b', work run = .ok (mid, b') := h.returns hfull hfullFirst
    obtain ⟨last, c', hsecond⟩ : ∃ last c', second mid = .ok (last, c') :=
      h'.returns hfullMid hfullSecond
    exact ⟨last, f b' c', bind_eq_ok_iff.2 ⟨_, hfirst, bind_eq_ok_iff.2 ⟨_, hsecond, rfl⟩⟩⟩

/-- An answer is put in another form. -/
theorem map (h : Stoppable work) (f : β → γ) :
    Stoppable fun run => work run >>= fun x => .ok (x.1, f x.2) :=
  h.both (pure ()) fun b _ => f b

/-- Behind a checkpoint it does not matter whether an earlier stop was noted. -/
theorem told_gated (h : Stoppable work) {report : Report} {early : β} {run after : Run α} {b : β}
    (hok : run.gated report early work = .ok (after, b)) : after.Told := by
  unfold Run.gated at hok
  split at hok
  next =>
    cases hok
    exact fun _ => rfl
  next hgoing => exact h.told hok (Run.told_of_running (eq_false_of_ne_true hgoing))

theorem gate (report : Report) (early : β) (h : Stoppable work) :
    Stoppable (Run.gated report early work) where
  continues := by
    intro run after b hok
    have hreport := run.continues_checkpoint report
    unfold Run.gated at hok
    split at hok
    next hstopped =>
      cases hok
      exact hreport.trans (Run.continues_markAborted hstopped)
    next => exact hreport.trans (h.continues hok)
  told := fun hok _ => h.told_gated hok
  agrees := by
    intro run full after b hfull hok hafter
    have hreport := (full.continues_checkpoint report).undisturbed hfull
    unfold Run.gated at hok ⊢
    rw [if_neg (by simp [hreport.running])]
    split at hok
    next =>
      cases hok
      cases hafter
    next => exact h.agrees hreport hok hafter
  returns := by
    intro run full reached b hfull hok
    have hreport := (full.continues_checkpoint report).undisturbed hfull
    unfold Run.gated at hok ⊢
    rw [if_neg (by simp [hreport.running])] at hok
    split
    next => exact ⟨_, _, rfl⟩
    next => exact h.returns hreport hok

/-- A last checkpoint, after which the answer says whether a stop was noted. -/
theorem close (report : Report) (f : Bool → β) : Stoppable fun run : Run α =>
    let run := run.checkpoint report
    let run := if run.cancelled then run.markAborted else run
    .ok (run, f run.aborted) where
  continues := by
    intro run after b hok
    cases hok
    exact ((run.continues_checkpoint report).settles (Run.settles_markIf _)).toContinues
  told := by
    intro run after b hok _
    cases hok
    exact (Run.settles_markIf _).told
  agrees := by
    intro run full after b hfull hok hafter
    cases hok
    have hsettles := (full.continues_checkpoint report).settles (Run.settles_markIf _)
    have hcomplete := (hsettles.undisturbed hfull).complete
    exact ⟨_, congrArg Except.ok (Prod.ext rfl (congrArg f (hcomplete.trans hafter.symm)))⟩
  returns := fun _ _ => ⟨_, _, rfl⟩

end Stoppable

/-! ### Properties of all answers -/

/-- Whatever the run, an answer of some work has a property. -/
def Answers (P : β → Prop) (work : Run α → Except Failure (Run α × β)) : Prop :=
  ∀ run after b, work run = .ok (after, b) → P b

namespace Answers

variable {P : β → Prop} {work : Run α → Except Failure (Run α × β)}

theorem pure {b : β} (h : P b) : Answers P fun run : Run α => .ok (run, b) := by
  intro run after b' hok
  cases hok
  exact h

theorem afterComputing {x : Except Failure γ} {work : γ → Run α → Except Failure (Run α × β)}
    (h : ∀ c, x = .ok c → Answers P (work c)) : Answers P fun run => x >>= fun c => work c run := by
  intro run after b hok
  obtain ⟨c, hc, hwork⟩ := bind_eq_ok_iff.1 hok
  exact h c hc run after b hwork

theorem gate {report : Report} {early : β} (hearly : P early) (h : Answers P work) :
    Answers P (Run.gated report early work) := by
  intro run after b hok
  unfold Run.gated at hok
  split at hok
  next =>
    cases hok
    exact hearly
  next => exact h _ after b hok

end Answers

/-! ### Work that does not fail -/

/-- Whatever the run, some work has an answer. -/
def Succeeds (work : Run α → Except Failure (Run α × β)) : Prop :=
  ∀ run, ∃ after b, work run = .ok (after, b)

namespace Succeeds

variable {work : Run α → Except Failure (Run α × β)}

theorem pure (b : β) : Succeeds fun run : Run α => .ok (run, b) := fun run => ⟨run, b, rfl⟩

theorem afterComputing {x : Except Failure γ} {work : γ → Run α → Except Failure (Run α × β)}
    (hx : ∃ c, x = .ok c) (h : ∀ c, x = .ok c → Succeeds (work c)) :
    Succeeds fun run => x >>= fun c => work c run := by
  obtain ⟨c, hc⟩ := hx
  intro run
  obtain ⟨after, b, hwork⟩ := h c hc run
  exact ⟨after, b, bind_eq_ok_iff.2 ⟨c, hc, hwork⟩⟩

/-- Two stages, the second of which takes up where the first has left the run. -/
theorem andThen {second : β → Run α → Except Failure (Run α × γ)} (h : Succeeds work)
    (h' : ∀ b, Succeeds (second b)) : Succeeds fun run => work run >>= fun x => second x.2 x.1 := by
  intro run
  obtain ⟨mid, b, hfirst⟩ := h run
  obtain ⟨after, c, hsecond⟩ := h' b mid
  exact ⟨after, c, bind_eq_ok_iff.2 ⟨(mid, b), hfirst, hsecond⟩⟩

theorem gate (report : Report) (early : β) (h : Succeeds work) :
    Succeeds (Run.gated report early work) := by
  intro run
  unfold Run.gated
  split
  next => exact ⟨_, _, rfl⟩
  next => exact h _

end Succeeds

end RoleMining
