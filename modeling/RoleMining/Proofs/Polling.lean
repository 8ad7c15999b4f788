import Mathlib.Data.List.Sort
import Mathlib.Data.Nat.Choose.Basic
import RoleMining.Proofs.Sweep

/-!
# When a pass reports

A pass compares every two positions once, the earlier one first, and reports after every so many
comparisons and once at the end. So the reports of a pass are known beforehand from the number of
its sets, and a reporter that refuses one of them decides how many pairs are compared: those before
the comparison that the refused report counts last.
-/
namespace RoleMining

/-! ### The order of the pairs -/

section Pairs

variable {α β : Type}

theorem length_pairs (xs : List α) : (pairs xs).length = xs.length * (xs.length - 1) / 2 := by
  rw [← Nat.choose_two_right]
  induction xs with
  | nil => rfl
  | cons x xs ih =>
    rw [pairs, List.length_append, List.length_map, ih, List.length_cons, Nat.choose_succ_succ',
      Nat.choose_one_right]

theorem pairs_map (f : α → β) (xs : List α) : pairs (xs.map f) = (pairs xs).map (Prod.map f f) := by
  induction xs with
  | nil => rfl
  | cons x xs ih => simp [pairs, ih]

/-- The pairs of a list are those of its positions. -/
theorem pairs_eq_map_positions (xs : List α) :
    pairs xs = (pairs (List.finRange xs.length)).map (Prod.map xs.get xs.get) := by
  rw [← pairs_map, List.map_get_finRange]

theorem mem_pairs_finRange {n : ℕ} {i j : Fin n} : (i, j) ∈ pairs (List.finRange n) ↔ i < j := by
  rw [mem_pairs]
  constructor
  · intro h
    have hpair := (List.sortedLT_finRange n).pairwise.sublist h
    exact List.rel_of_pairwise_cons hpair (List.mem_singleton_self j)
  · intro hlt
    have hsub : [i, j].Subperm (List.finRange n) :=
      List.subperm_of_subset (by simpa using hlt.ne) fun k _ => List.mem_finRange k
    have hsorted : [i, j].SortedLE := List.Pairwise.sortedLE (by simpa using hlt.le)
    exact List.sublist_of_subperm_of_sortedLE hsub hsorted (List.sortedLT_finRange n).sortedLE

/-- Ordered by the first element of the pair, then by the second. -/
theorem pairwise_pairs {r : α → α → Prop} {xs : List α} (h : xs.Pairwise r) :
    (pairs xs).Pairwise (Prod.Lex r r) := by
  induction xs with
  | nil => exact .nil
  | cons x xs ih =>
    obtain ⟨hx, hxs⟩ := List.pairwise_cons.1 h
    rw [pairs, List.pairwise_append]
    refine ⟨?_, ih hxs, ?_⟩
    · rw [List.pairwise_map]
      exact hxs.imp fun hab => Prod.Lex.right x hab
    · intro p hp q hq
      obtain ⟨b, -, rfl⟩ := List.mem_map.1 hp
      have hfirst : q.1 ∈ xs := (mem_pairs.1 (Prod.mk.eta (p := q) ▸ hq)).mem List.mem_cons_self
      exact Prod.Lex.left b q.2 (hx q.1 hfirst)

end Pairs

/-! ### The reports of a pass -/

/-- The reports of a pass over so many pairs: one each time the interval has gone by, and the last
one, also when there is nothing to compare. -/
def Sweep.schedule (every total : ℕ) : List Report :=
  (List.range (total / every)).map (fun i => ⟨((i + 1) * every : ℕ), total, false⟩) ++
    [⟨total, total, true⟩]

namespace Sweep

theorem length_schedule (every total : ℕ) : (schedule every total).length = total / every + 1 := by
  simp [schedule]

theorem schedule_getElem? {every total k : ℕ} (hk : k < total / every) :
    (schedule every total)[k]? = some ⟨((k + 1) * every : ℕ), total, false⟩ := by
  rw [schedule, List.getElem?_append_left (by simpa using hk), List.getElem?_map,
    List.getElem?_range hk]
  rfl

theorem schedule_getElem?_last (every total : ℕ) :
    (schedule every total)[total / every]? = some ⟨total, total, true⟩ := by
  rw [schedule, List.getElem?_append_right (by simp)]
  simp

end Sweep

variable {α : Type} {run : Run α} {total n : ℕ}

namespace Run

/-- The run after so many comparisons that did not stop it. -/
def ticks (run : Run α) (total : ℕ) : ℕ → Run α
  | 0 => run
  | n + 1 => (run.ticks total n).tick (n + 1) total

theorem continues_ticks (run : Run α) (total n : ℕ) : run.Continues (run.ticks total n) := by
  induction n with
  | zero => exact .refl run
  | succ n ih => exact ih.trans (continues_tick _ _ _)

@[simp] theorem pollEvery_tick (run : Run α) (done total : ℕ) :
    (run.tick done total).pollEvery = run.pollEvery := by
  unfold tick
  split_ifs <;> rfl

@[simp] theorem pollEvery_ticks (run : Run α) (total n : ℕ) :
    (run.ticks total n).pollEvery = run.pollEvery := by
  induction n with
  | zero => rfl
  | succ n ih => rw [ticks, pollEvery_tick, ih]

/-- After some comparisons a first part of the schedule has been reported. -/
theorem calls_ticks (hn : n ≤ total) : (run.ticks total n).calls =
    run.calls ++ (Sweep.schedule run.pollEvery total).take (n / run.pollEvery) := by
  induction n with
  | zero => simp [ticks]
  | succ n ih =>
    have hcalls := ih (by omega)
    rw [ticks, tick, isDue, pollEvery_ticks]
    split_ifs with hdue
    · have hdvd : run.pollEvery ∣ n + 1 := Nat.dvd_of_mod_eq_zero (by simpa using hdue)
      have hquotient : (n + 1) / run.pollEvery = n / run.pollEvery + 1 :=
        Nat.succ_div_of_dvd hdvd
      have hnumber : (n / run.pollEvery + 1) * run.pollEvery = n + 1 := by
        rw [← hquotient, Nat.div_mul_cancel hdvd]
      have hlt : n / run.pollEvery < total / run.pollEvery := by
        rw [← Nat.add_one_le_iff, ← hquotient]
        exact Nat.div_le_div_right hn
      change (run.ticks total n).calls ++ _ = _
      rw [hcalls, hquotient, List.take_add_one, Sweep.schedule_getElem? hlt, hnumber,
        List.append_assoc]
      rfl
    · have hdvd : ¬ run.pollEvery ∣ n + 1 := fun hdvd =>
        hdue (by simpa using Nat.mod_eq_zero_of_dvd hdvd)
      rw [hcalls, Nat.succ_div_of_not_dvd hdvd]

/-- A run goes on as long as the reports of the schedule are answered with yes. -/
theorem running_ticks (hrun : run.cancelled = false) (hn : n ≤ total)
    (hyes : ∀ i < n / run.pollEvery,
      run.reporter (run.calls ++ (Sweep.schedule run.pollEvery total).take (i + 1)) = true) :
    (run.ticks total n).cancelled = false := by
  have hcontinues := continues_ticks run total n
  by_contra hcancelled
  obtain ⟨i, hi, hlt, hrefused⟩ :=
    hcontinues.exists_refusedAt hrun (eq_true_of_ne_false hcancelled)
  obtain ⟨j, rfl⟩ := Nat.exists_eq_add_of_le hi
  rw [calls_ticks hn, List.length_append, List.length_take] at hlt
  have hj : j < n / run.pollEvery := by omega
  rw [hcontinues.reporter, calls_ticks hn, add_assoc, List.take_length_add_append, List.take_take,
    min_eq_left (by omega), hyes j hj] at hrefused
  cases hrefused

end Run

namespace Sweep

variable {qualifies : IdSet → Bool} {ps : List (IdSet × IdSet)}

theorem shared_append (qualifies : IdSet → Bool) (ps qs : List (IdSet × IdSet)) :
    shared qualifies (ps ++ qs) = shared qualifies ps ++ shared qualifies qs := by
  rw [shared, List.map_append, List.filter_append]
  rfl

/-- As long as the run goes on, a pass compares one pair after the other. -/
theorem walk_eq_of_running (hn : n ≤ ps.length) (hrunning : (run.ticks total n).cancelled = false) :
    walk qualifies total run 0 [] ps = walk qualifies total (run.ticks total n) n
      (shared qualifies (ps.take n)).reverse (ps.drop n) := by
  induction n with
  | zero => simp [Run.ticks, shared]
  | succ n ih =>
    have hlt : n < ps.length := by omega
    have hbefore : (run.ticks total n).cancelled = false :=
      ((run.ticks total n).continues_tick (n + 1) total).running hrunning
    have hstep : ((run.ticks total n).tick (n + 1) total).cancelled = false := hrunning
    rw [ih (by omega) hbefore, List.drop_eq_getElem_cons hlt, walk_cons, hstep, Bool.and_false,
      if_neg Bool.false_ne_true]
    congr 1
    rw [← List.take_concat_get' ps n hlt, shared_append, List.reverse_append]
    have hpair := shared_cons qualifies ps[n].1 ps[n].2 []
    rw [Prod.mk.eta] at hpair
    rw [hpair]
    split_ifs <;> rfl

/-- A pass that no report stops before its last one. -/
theorem pairwise_of_yes (qualifies : IdSet → Bool) (sets : List IdSet)
    (hrun : run.cancelled = false)
    (hyes : ∀ i < (pairs sets).length / run.pollEvery, run.reporter
      (run.calls ++ (schedule run.pollEvery (pairs sets).length).take (i + 1)) = true) :
    let calls := run.calls ++ schedule run.pollEvery (pairs sets).length
    (pairwise qualifies run sets).stopped = !run.reporter calls ∧
      (pairwise qualifies run sets).run.calls = calls ∧
      (pairwise qualifies run sets).seen = shared qualifies (pairs sets) := by
  have hrunning := Run.running_ticks hrun (le_refl (pairs sets).length) hyes
  have hreporter := (run.continues_ticks (pairs sets).length (pairs sets).length).reporter
  have hcalls : (run.ticks (pairs sets).length (pairs sets).length).calls = _ :=
    Run.calls_ticks le_rfl
  have hall : (schedule run.pollEvery (pairs sets).length).take
      ((pairs sets).length / run.pollEvery) ++ [⟨(pairs sets).length, (pairs sets).length, true⟩] =
        schedule run.pollEvery (pairs sets).length := by
    rw [← Option.toList_some, ← schedule_getElem?_last, ← List.take_add_one,
      List.take_of_length_le (length_schedule _ _).le]
  have hpass : walk qualifies (pairs sets).length run 0 [] (pairs sets) = _ :=
    walk_eq_of_running le_rfl hrunning
  rw [List.drop_length, List.take_length] at hpass
  unfold pairwise
  dsimp only
  rw [hpass]
  refine ⟨?_, ?_, List.reverse_reverse _⟩
  · change ((run.ticks _ _).cancelled || !(run.ticks _ _).reporter ((run.ticks _ _).calls ++ _)) = _
    rw [hrunning, hreporter, hcalls, List.append_assoc, hall, Bool.false_or]
  · change (run.ticks _ _).calls ++ _ = _
    rw [hcalls, List.append_assoc, hall]

/-- A pass that is stopped by one of the reports it makes on its way. -/
theorem pairwise_of_no (qualifies : IdSet → Bool) (sets : List IdSet) {c : ℕ}
    (hrun : run.cancelled = false) (hc : c < (pairs sets).length / run.pollEvery)
    (hyes : ∀ i < c, run.reporter
      (run.calls ++ (schedule run.pollEvery (pairs sets).length).take (i + 1)) = true)
    (hno : run.reporter (run.calls ++
      (schedule run.pollEvery (pairs sets).length).take (c + 1)) = false) :
    (pairwise qualifies run sets).stopped = true ∧
      (pairwise qualifies run sets).run.calls =
        run.calls ++ (schedule run.pollEvery (pairs sets).length).take (c + 1) ∧
      (pairwise qualifies run sets).seen =
        shared qualifies ((pairs sets).take ((c + 1) * run.pollEvery - 1)) := by
  have hevery := run.pollEvery_pos
  have hle : (c + 1) * run.pollEvery ≤ (pairs sets).length :=
    (Nat.le_div_iff_mul_le hevery).1 hc
  obtain ⟨n, hn⟩ : ∃ n, n + 1 = (c + 1) * run.pollEvery :=
    ⟨(c + 1) * run.pollEvery - 1, Nat.sub_add_cancel (Nat.mul_pos c.succ_pos hevery)⟩
  rw [← hn, Nat.add_sub_cancel]
  have hlt : n < (pairs sets).length := by omega
  have hbefore : n / run.pollEvery = c := by
    rw [Nat.add_mul, one_mul] at hn
    exact Nat.div_eq_of_lt_le (by omega) (by rw [Nat.add_mul, one_mul]; omega)
  have hrunning := Run.running_ticks hrun hlt.le (hbefore.symm ▸ hyes)
  have hcalls : (run.ticks (pairs sets).length n).calls = _ := Run.calls_ticks hlt.le
  have hdue : (run.ticks (pairs sets).length n).isDue (n + 1) = true := by
    rw [Run.isDue, Run.pollEvery_ticks, hn, Nat.mul_mod_left]
    rfl
  have htick : (run.ticks (pairs sets).length n).tick (n + 1) (pairs sets).length =
      (run.ticks (pairs sets).length n).checkpoint ⟨(n + 1 : ℕ), (pairs sets).length, false⟩ :=
    if_pos hdue
  have hreported : ((run.ticks (pairs sets).length n).tick (n + 1) (pairs sets).length).calls =
      run.calls ++ (schedule run.pollEvery (pairs sets).length).take (c + 1) := by
    rw [htick, List.take_add_one, schedule_getElem? hc, ← hn, ← List.append_assoc, ← hbefore,
      ← hcalls]
    rfl
  have hcancelled : ((run.ticks (pairs sets).length n).tick (n + 1)
      (pairs sets).length).cancelled = true := by
    rw [htick] at hreported ⊢
    change (_ || !(run.ticks _ _).reporter
      ((run.ticks _ _).checkpoint ⟨(n + 1 : ℕ), (pairs sets).length, false⟩).calls) = true
    rw [hreported, (run.continues_ticks _ _).reporter, hno, Bool.not_false, Bool.or_true]
  unfold pairwise
  dsimp only
  rw [walk_eq_of_running hlt.le hrunning, List.drop_eq_getElem_cons hlt, walk_cons, hdue,
    hcancelled, Bool.and_true, if_pos rfl]
  exact ⟨rfl, hreported, List.reverse_reverse _⟩

/-- A pass compares every two positions once, in order, and makes the reports of its schedule. When
the reporter answers all of them with yes, the pass comes to its end. When it refuses one for the
first time, the pass makes no further report, and what it has seen are the qualifying intersections
of the pairs before the one that this report counts last, or of all pairs if it is the last. -/
theorem pass_polls_on_schedule (qualifies : IdSet → Bool) (run : Run α) (sets : List IdSet)
    (hrun : run.cancelled = false) :
    let total := sets.length * (sets.length - 1) / 2
    let reports := schedule run.pollEvery total
    let pass := pairwise qualifies run sets
    ((pairs sets).length = total ∧
      pairs sets = (pairs (List.finRange sets.length)).map (Prod.map sets.get sets.get) ∧
      (∀ i j, (i, j) ∈ pairs (List.finRange sets.length) ↔ i < j) ∧
      (pairs (List.finRange sets.length)).Pairwise (Prod.Lex (· < ·) (· < ·))) ∧
    ((∀ i < reports.length, run.reporter (run.calls ++ reports.take (i + 1)) = true) →
      pass.stopped = false ∧ pass.run.calls = run.calls ++ reports ∧
        pass.seen = shared qualifies (pairs sets)) ∧
    ∀ c < reports.length,
      (∀ i < c, run.reporter (run.calls ++ reports.take (i + 1)) = true) →
      run.reporter (run.calls ++ reports.take (c + 1)) = false →
      pass.stopped = true ∧ pass.run.calls = run.calls ++ reports.take (c + 1) ∧
        pass.seen = shared qualifies ((pairs sets).take
          (if c < total / run.pollEvery then (c + 1) * run.pollEvery - 1 else total)) := by
  intro total reports pass
  have htotal : (pairs sets).length = total := length_pairs sets
  have hlength : reports.length = total / run.pollEvery + 1 := length_schedule _ _
  have hfinal := pairwise_of_yes qualifies sets hrun
  have hearly {c : ℕ} (hc : c < (pairs sets).length / run.pollEvery) :=
    pairwise_of_no qualifies sets hrun hc
  rw [htotal] at hfinal hearly
  refine ⟨⟨htotal, pairs_eq_map_positions sets, fun _ _ => mem_pairs_finRange,
    pairwise_pairs (List.sortedLT_finRange _).pairwise⟩, fun hyes => ?_, fun c hc hyes hno => ?_⟩
  · obtain ⟨hstopped, hcalls, hseen⟩ := hfinal fun i hi => hyes i (by omega)
    have hlast := hyes (total / run.pollEvery) (by omega)
    rw [List.take_of_length_le hlength.le] at hlast
    exact ⟨hstopped.trans (congrArg not hlast), hcalls, hseen⟩
  · split_ifs with hbefore
    · exact hearly hbefore hyes hno
    · -- only the last report is left to be refused
      obtain rfl : c = total / run.pollEvery := by omega
      obtain ⟨hstopped, hcalls, hseen⟩ := hfinal hyes
      have hlast : reports.take (total / run.pollEvery + 1) = reports :=
        List.take_of_length_le hlength.le
      rw [hlast] at hno ⊢
      refine ⟨hstopped.trans (congrArg not hno), hcalls, ?_⟩
      rw [← htotal, List.take_length]
      exact hseen

/-- A run that is told about every other comparison and refuses the second report. -/
def hurried : Run Unit := { pollEvery := 2, reporter := fun calls => calls.length < 2 }

def teams : List IdSet :=
  [.ofList ["a", "b"], .ofList ["b", "c"], .ofList ["a", "c"], .ofList ["a", "b", "c"]]

theorem hurried_pass_stops_at_second_report : hurried.cancelled = false ∧
    (pairwise (fun _ => true) hurried teams).stopped = true ∧
    (pairwise (fun _ => true) hurried teams).run.calls = [⟨2, 6, false⟩, ⟨4, 6, false⟩] ∧
    (pairwise (fun _ => true) hurried teams).seen =
      [.ofList ["b"], .ofList ["a"], .ofList ["a", "b"]] := by
  obtain ⟨-, -, hstop⟩ := pass_polls_on_schedule (fun _ => true) hurried teams rfl
  obtain ⟨hstopped, hcalls, hseen⟩ := hstop 1 (by decide) (by decide) (by decide)
  exact ⟨rfl, hstopped, hcalls.trans (by decide), hseen.trans (by decide)⟩

end Sweep
end RoleMining
