import Mathlib.Data.List.Infix
import RoleMining.Run.Basic

/-!
# The course of a run

Whatever a stage does, it only adds calls to a run, and nothing but a refused call can cancel it.
So a run that ends uncancelled was uncancelled throughout, and a cancelled one has an answer of its
reporter to show for it. A stage that leaves a cancelled run has marked it as aborted.
-/
namespace RoleMining

variable {α : Type}

namespace Run

variable {r mid after : Run α} {i : ℕ}

/-- Nothing will stop the run: it is not cancelled, and its reporter always lets the work go on. -/
structure Unhindered (r : Run α) : Prop where
  running : r.cancelled = false
  lenient : ∀ calls, r.reporter calls = true

theorem unhindered_unwatched : (unwatched : Run α).Unhindered := ⟨rfl, fun _ => rfl⟩

@[simp] theorem cancelled_markAborted (r : Run α) : r.markAborted.cancelled = r.cancelled := rfl

/-- The run after `done` units: it is told about them when a report is due. -/
def tick (r : Run α) (done total : ℕ) : Run α :=
  if r.isDue done then r.checkpoint ⟨done, total, false⟩ else r

/-- The reporter said no to the call at a position. -/
def RefusedAt (r : Run α) (i : ℕ) : Prop :=
  i < r.calls.length ∧ r.reporter (r.calls.take (i + 1)) = false

/-- What work of any kind does to a run. -/
structure Continues (r after : Run α) : Prop where
  reporter : after.reporter = r.reporter
  calls : r.calls <+: after.calls
  cancelled : after.cancelled = true ↔
    r.cancelled = true ∨ ∃ i, r.calls.length ≤ i ∧ after.RefusedAt i
  aborted : r.aborted = true → after.aborted = true
  /-- A mark stands for a cancellation. -/
  marked : (r.aborted = true → r.cancelled = true) → after.aborted = true → after.cancelled = true

theorem Continues.refl (r : Run α) : r.Continues r where
  reporter := rfl
  calls := List.prefix_rfl
  cancelled := by
    refine ⟨.inl, fun h => ?_⟩
    rcases h with h | ⟨i, hi, hlt, -⟩
    · exact h
    · omega
  aborted := id
  marked := id

/-- Answers to earlier calls do not change. -/
theorem Continues.refusedAt_iff (h : r.Continues after) (hi : i < r.calls.length) :
    after.RefusedAt i ↔ r.RefusedAt i := by
  have hlength := h.calls.length_le
  have htake : after.calls.take (i + 1) = r.calls.take (i + 1) := by
    obtain ⟨rest, hrest⟩ := h.calls
    rw [← hrest, List.take_append_of_le_length (by omega)]
  unfold RefusedAt
  rw [htake, h.reporter]
  simp only [hi, true_and, and_iff_right_iff_imp]
  omega

theorem Continues.trans (h : r.Continues mid) (h' : mid.Continues after) : r.Continues after where
  reporter := h'.reporter.trans h.reporter
  calls := h.calls.trans h'.calls
  cancelled := by
    have hlength := h.calls.length_le
    rw [h'.cancelled, h.cancelled, or_assoc]
    refine or_congr_right ⟨fun hrefused => ?_, fun hrefused => ?_⟩
    · rcases hrefused with ⟨i, hi, hr⟩ | ⟨i, hi, hr⟩
      · exact ⟨i, hi, (h'.refusedAt_iff hr.1).2 hr⟩
      · exact ⟨i, hlength.trans hi, hr⟩
    · obtain ⟨i, hi, hr⟩ := hrefused
      rcases lt_or_ge i mid.calls.length with hlt | hge
      · exact .inl ⟨i, hi, (h'.refusedAt_iff hlt).1 hr⟩
      · exact .inr ⟨i, hge, hr⟩
  aborted := fun haborted => h'.aborted (h.aborted haborted)
  marked := fun hr => h'.marked (h.marked hr)

theorem Continues.running (h : r.Continues after) (hafter : after.cancelled = false) :
    r.cancelled = false := by
  by_contra hr
  rw [h.cancelled.2 (.inl (eq_true_of_ne_false hr))] at hafter
  cases hafter

theorem Continues.not_aborted (h : r.Continues after) (hafter : after.aborted = false) :
    r.aborted = false := by
  by_contra hr
  rw [h.aborted (eq_true_of_ne_false hr)] at hafter
  cases hafter

/-- Only a cancelled run gets marked. -/
theorem Continues.complete (h : r.Continues after) (hr : r.aborted = false)
    (hafter : after.cancelled = false) : after.aborted = false := by
  by_contra haborted
  have hmark : r.aborted = true → r.cancelled = true := by simp [hr]
  rw [h.marked hmark (eq_true_of_ne_false haborted)] at hafter
  cases hafter

/-- No call of an uncancelled run was refused. -/
theorem Continues.not_refusedAt (h : r.Continues after) (hafter : after.cancelled = false)
    (hi : r.calls.length ≤ i) : ¬ after.RefusedAt i := by
  intro hrefused
  rw [h.cancelled.2 (.inr ⟨i, hi, hrefused⟩)] at hafter
  cases hafter

theorem Continues.exists_refusedAt (h : r.Continues after) (hr : r.cancelled = false)
    (hafter : after.cancelled = true) : ∃ i, r.calls.length ≤ i ∧ after.RefusedAt i := by
  rcases h.cancelled.1 hafter with hcancelled | hrefused
  · rw [hr] at hcancelled
    cases hcancelled
  · exact hrefused

/-- Nothing is refused to a run that nothing hinders. -/
theorem Continues.unhindered (h : r.Continues after) (hr : r.Unhindered) : after.Unhindered := by
  have hlenient : ∀ calls, after.reporter calls = true := by
    rw [h.reporter]
    exact hr.lenient
  refine ⟨?_, hlenient⟩
  by_contra hcancelled
  obtain ⟨i, -, -, hrefused⟩ := h.exists_refusedAt hr.running (eq_true_of_ne_false hcancelled)
  rw [hlenient] at hrefused
  cases hrefused

theorem continues_checkpoint (r : Run α) (report : Report) :
    r.Continues (r.checkpoint report) where
  reporter := rfl
  calls := List.prefix_append _ _
  cancelled := by
    have hlast : (r.checkpoint report).RefusedAt r.calls.length ↔
        r.reporter (r.calls ++ [report]) = false := by
      simp [RefusedAt, checkpoint, List.take_of_length_le]
    have honly (i : ℕ) (hi : r.calls.length ≤ i) (hrefused : (r.checkpoint report).RefusedAt i) :
        i = r.calls.length := by
      have hlt := hrefused.1
      simp only [checkpoint, List.length_append, List.length_singleton] at hlt
      omega
    have hcancelled : (r.checkpoint report).cancelled = true ↔
        r.cancelled = true ∨ r.reporter (r.calls ++ [report]) = false := by
      simp [checkpoint]
    rw [hcancelled, ← hlast]
    refine or_congr_right ⟨fun h => ⟨_, le_rfl, h⟩, fun h => ?_⟩
    obtain ⟨i, hi, hrefused⟩ := h
    rwa [honly i hi hrefused] at hrefused
  aborted := id
  marked := by
    intro hr haborted
    simp [checkpoint, hr haborted]

theorem continues_tick (r : Run α) (done total : ℕ) : r.Continues (r.tick done total) := by
  unfold tick
  split
  · exact continues_checkpoint r _
  · exact .refl r

/-- A run is marked only once it is cancelled. -/
theorem continues_markAborted (h : r.cancelled = true) : r.Continues r.markAborted where
  reporter := rfl
  calls := List.prefix_rfl
  cancelled := (Continues.refl r).cancelled
  aborted := fun _ => rfl
  marked := fun _ _ => h

theorem continues_collect (r : Run α) (item : α) : r.Continues (r.collect item) where
  reporter := rfl
  calls := List.prefix_rfl
  cancelled := (Continues.refl r).cancelled
  aborted := id
  marked := id

/-- If the run is cancelled, some stage has noted it. -/
def Told (r : Run α) : Prop := r.cancelled = true → r.aborted = true

theorem told_of_running (h : r.cancelled = false) : r.Told := by
  intro hcancelled
  rw [h] at hcancelled
  cases hcancelled

theorem Told.running (h : r.Told) (hr : r.aborted = false) : r.cancelled = false := by
  by_contra hcancelled
  rw [h (eq_true_of_ne_false hcancelled)] at hr
  cases hr

/-- What a stage does that notes every stop. -/
structure Settles (r after : Run α) : Prop extends r.Continues after where
  told : after.Told

/-- A stage notes that it was stopped. -/
theorem settles_markIf (r : Run α) :
    r.Settles (if r.cancelled then r.markAborted else r) := by
  split
  next h => exact ⟨continues_markAborted h, fun _ => rfl⟩
  next h => exact ⟨.refl r, fun hcancelled => absurd hcancelled h⟩

theorem settles_markAborted (h : r.cancelled = true) : r.Settles r.markAborted :=
  ⟨continues_markAborted h, fun _ => rfl⟩

theorem Continues.settles (h : r.Continues mid) (h' : mid.Settles after) : r.Settles after :=
  ⟨h.trans h'.toContinues, h'.told⟩

end Run

/-! ### A stop that comes too late -/

namespace Run

variable {r mid after : Run α} {last : Report}

/-- Of the calls that came after a run, at most the very last one was refused, and it made a certain
report. -/
def RefusedOnlyAt (r after : Run α) (last : Report) : Prop :=
  ∀ i, r.calls.length ≤ i → after.RefusedAt i →
    i + 1 = after.calls.length ∧ after.calls[i]? = some last

theorem refusedOnlyAt_of_running (h : r.Continues after) (hafter : after.cancelled = false) :
    RefusedOnlyAt r after last :=
  fun _ hi hrefused => absurd hrefused (h.not_refusedAt hafter hi)

/-- What came before an uncancelled run does not matter. -/
theorem refusedOnlyAt_iff_of_running (h : r.Continues mid) (hmid : mid.cancelled = false)
    (h' : mid.Continues after) : RefusedOnlyAt r after last ↔ RefusedOnlyAt mid after last := by
  have hlength := h.calls.length_le
  refine ⟨fun hrefused i hi => hrefused i (hlength.trans hi), fun hrefused i hi hcall => ?_⟩
  rcases lt_or_ge i mid.calls.length with hlt | hge
  · exact absurd ((h'.refusedAt_iff hlt).1 hcall) (h.not_refusedAt hmid hi)
  · exact hrefused i hge hcall

/-- A stop that was followed by another call was not the last. -/
theorem not_refusedOnlyAt (h : r.Continues mid) (hr : r.cancelled = false)
    (hmid : mid.cancelled = true) (h' : mid.Continues after)
    (hlength : mid.calls.length < after.calls.length) : ¬ RefusedOnlyAt r after last := by
  intro hrefused
  obtain ⟨i, hi, hcall⟩ := h.exists_refusedAt hr hmid
  have hlast := (hrefused i hi ((h'.refusedAt_iff hcall.1).2 hcall)).1
  have hlt := hcall.1
  omega

/-- The only call of a single checkpoint. -/
theorem refusedOnlyAt_checkpoint_iff {report : Report} (hr : r.cancelled = false)
    (hstopped : (r.checkpoint report).cancelled = true) :
    RefusedOnlyAt r (r.checkpoint report) last ↔ report = last := by
  obtain ⟨i, hi, hcall⟩ := (r.continues_checkpoint report).exists_refusedAt hr hstopped
  have hcalls : (r.checkpoint report).calls = r.calls ++ [report] := rfl
  have honly {j : ℕ} (hj : r.calls.length ≤ j) (hlt : j < (r.checkpoint report).calls.length) :
      j = r.calls.length := by
    rw [hcalls, List.length_append, List.length_singleton] at hlt
    omega
  constructor
  · intro hrefused
    have hlast := (hrefused i hi hcall).2
    rw [honly hi hcall.1, hcalls, List.getElem?_concat_length] at hlast
    exact Option.some_inj.1 hlast
  · intro he j hj hcall'
    subst he
    rw [honly hj hcall'.1, hcalls]
    exact ⟨by simp, List.getElem?_concat_length⟩

end Run

end RoleMining
