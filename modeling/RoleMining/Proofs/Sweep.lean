import RoleMining.Proofs.Course
import RoleMining.Proofs.Meet

/-!
# What a pass over pairs sees

A pass goes through the pairs in their order and stops only at a checkpoint. So it has seen the
qualifying intersections of a first part of the pairs, and of all of them unless it was stopped;
and it was stopped exactly when it leaves a cancelled run.
-/
namespace RoleMining

namespace Sweep

variable {α : Type}

/-- The qualifying intersections of some pairs. -/
def shared (qualifies : IdSet → Bool) (ps : List (IdSet × IdSet)) : List IdSet :=
  (ps.map fun p => p.1.inter p.2).filter qualifies

theorem shared_cons (qualifies : IdSet → Bool) (a b : IdSet) (ps : List (IdSet × IdSet)) :
    shared qualifies ((a, b) :: ps) =
      (if qualifies (a.inter b) then [a.inter b] else []) ++ shared qualifies ps := by
  unfold shared
  rw [List.map_cons, List.filter_cons]
  split_ifs <;> rfl

theorem mem_shared_pairs {qualifies : IdSet → Bool} {sets : List IdSet} {K : IdSet} :
    K ∈ shared qualifies (pairs sets) ↔ qualifies K = true ∧ IsMeet 2 sets K := by
  rw [shared, List.mem_filter, List.mem_map, isMeet_two_iff, and_comm]

theorem walk_cons (qualifies : IdSet → Bool) (total : ℕ) (run : Run α) (compared : ℕ)
    (seen : List IdSet) (a b : IdSet) (ps : List (IdSet × IdSet)) :
    walk qualifies total run compared seen ((a, b) :: ps) =
      if run.isDue (compared + 1) && (run.tick (compared + 1) total).cancelled then
        ⟨run.tick (compared + 1) total, seen.reverse, true⟩
      else walk qualifies total (run.tick (compared + 1) total) (compared + 1)
        (if qualifies (a.inter b) then a.inter b :: seen else seen) ps := rfl

theorem walk_stopped (qualifies : IdSet → Bool) (total : ℕ) (run : Run α) (compared : ℕ)
    (seen : List IdSet) (ps : List (IdSet × IdSet)) :
    (walk qualifies total run compared seen ps).stopped =
      (walk qualifies total run compared seen ps).run.cancelled := by
  induction ps generalizing run compared seen with
  | nil => rfl
  | cons p ps ih =>
    rw [walk_cons]
    split
    next h =>
      rw [Bool.and_eq_true] at h
      exact h.2.symm
    next => exact ih ..

theorem walk_seen (qualifies : IdSet → Bool) (total : ℕ) (run : Run α) (compared : ℕ)
    (seen : List IdSet) (ps : List (IdSet × IdSet)) :
    ∃ done, done <+: ps ∧
      (walk qualifies total run compared seen ps).seen = seen.reverse ++ shared qualifies done ∧
      ((walk qualifies total run compared seen ps).stopped = false → done = ps) := by
  induction ps generalizing run compared seen with
  | nil => exact ⟨[], List.prefix_rfl, by simp [walk, shared], fun _ => rfl⟩
  | cons p ps ih =>
    obtain ⟨a, b⟩ := p
    rw [walk_cons]
    split
    next => exact ⟨[], List.nil_prefix, by simp [shared], by simp⟩
    next =>
      obtain ⟨done, hinitial, hseen, hall⟩ := ih (run.tick (compared + 1) total) (compared + 1)
        (if qualifies (a.inter b) then a.inter b :: seen else seen)
      refine ⟨(a, b) :: done, List.cons_prefix_cons.2 ⟨rfl, hinitial⟩, ?_, fun h => ?_⟩
      · rw [hseen, shared_cons]
        split_ifs <;> simp
      · rw [hall h]

theorem continues_walk (qualifies : IdSet → Bool) (total : ℕ) (run : Run α) (compared : ℕ)
    (seen : List IdSet) (ps : List (IdSet × IdSet)) :
    run.Continues (walk qualifies total run compared seen ps).run := by
  induction ps generalizing run compared seen with
  | nil => exact run.continues_checkpoint _
  | cons p ps ih =>
    rw [walk_cons]
    split
    · exact run.continues_tick _ _
    · exact (run.continues_tick _ _).trans (ih ..)

theorem pairwise_stopped (qualifies : IdSet → Bool) (run : Run α) (sets : List IdSet) :
    (pairwise qualifies run sets).stopped = (pairwise qualifies run sets).run.cancelled :=
  walk_stopped ..

theorem continues_pairwise (qualifies : IdSet → Bool) (run : Run α) (sets : List IdSet) :
    run.Continues (pairwise qualifies run sets).run :=
  continues_walk ..

/-- A pass that leaves an uncancelled run has seen the intersections of all pairs. -/
theorem pairwise_seen {qualifies : IdSet → Bool} {run : Run α} {sets : List IdSet}
    (h : (pairwise qualifies run sets).run.cancelled = false) :
    (pairwise qualifies run sets).seen = shared qualifies (pairs sets) := by
  obtain ⟨done, -, hseen, hall⟩ := walk_seen qualifies (pairs sets).length run 0 [] (pairs sets)
  have hstopped : (pairwise qualifies run sets).stopped = false := (pairwise_stopped ..).trans h
  rw [pairwise, hseen, hall hstopped]
  rfl

end Sweep
end RoleMining
