import RoleMining.Cluster.Clustering
import RoleMining.Proofs.Stoppable

/-!
# Clustering is stoppable

The steps of clustering stand between five checkpoints. Each of the first four is a gate that leaves
a result of its own when the run is stopped there; after the fifth the result says whether it was.
-/
namespace RoleMining.Clustering

variable {α : Type}

/-- The last steps: chunks join further groups, and the groups become clusters. -/
def joined (policy : Policy) (chunks : List Chunk) (made : Partition) (groups : List (List ℕ))
    (run : Run α) : Except Failure (Run α × Clustering) :=
  (if policy.allowOverlap && !groups.isEmpty then Cluster.overlapped policy chunks groups
    else .ok groups) >>= fun groups =>
  Cluster.assemble policy.mode chunks made.similarities groups >>= fun clusters =>
  let run := run.checkpoint ⟨phases, phases, true⟩
  let run := if run.cancelled then run.markAborted else run
  .ok (run, conclude chunks clusters (some made) run.aborted)

/-- What is made of a partition, or without one. -/
def continued (policy : Policy) (chunks : List Chunk) (x : Run α × Option Partition) :
    Except Failure (Run α × Clustering) :=
  match x.2 with
  | none => .ok (x.1.markAborted, conclude chunks [] none true)
  | some made => finish policy chunks made x.1

section Steps

variable (finder : CommunityFinder) (policy : Policy) (chunks : List Chunk) (made : Partition)

theorem stoppable_joined (groups : List (List ℕ)) :
    Stoppable (joined policy chunks made groups : Run α → _) := by
  refine .afterComputing fun groups _ => ?_
  refine .afterComputing fun clusters _ => ?_
  exact .close ⟨phases, phases, true⟩ fun aborted => conclude chunks clusters (some made) aborted

theorem finish_eq (run : Run α) : finish policy chunks made run =
    Cluster.largeGroups policy chunks made.groups >>= fun groups =>
      run.gated ⟨4, phases, false⟩ (conclude chunks [] (some made) true)
        (joined policy chunks made groups) := by
  unfold finish Run.gated joined
  refine bind_congr fun groups => ?_
  dsimp only
  split
  · rfl
  · split <;> rfl

theorem stoppable_finish : Stoppable (finish policy chunks made : Run α → _) := by
  rw [funext (finish_eq policy chunks made)]
  exact .afterComputing fun groups _ => .gate _ _ (stoppable_joined policy chunks made groups)

theorem continued_checkpoint (report : Report) (run : Run α) :
    continued policy chunks (run.checkpoint report,
      if (run.checkpoint report).cancelled then none else some made) =
      run.gated report (conclude chunks [] none true) (finish policy chunks made) := by
  unfold continued Run.gated
  cases (run.checkpoint report).cancelled <;> rfl

theorem continued_divide_of_communities (h : policy.strategy = .communities) (run : Run α) :
    divide finder policy chunks run >>= continued policy chunks =
      Partition.graphOf policy chunks >>= fun g =>
        run.gated ⟨2, phases, false⟩ (conclude chunks [] none true) fun run =>
          Partition.ofGraph finder policy chunks g >>= fun made =>
            run.gated ⟨3, phases, false⟩ (conclude chunks [] none true)
              (finish policy chunks made) := by
  unfold divide
  rw [h]
  dsimp only
  rw [bind_assoc]
  refine bind_congr fun g => ?_
  rw [Run.gated]
  split
  next => rfl
  next =>
    rw [bind_assoc]
    refine bind_congr fun made => ?_
    exact continued_checkpoint policy chunks made ⟨3, phases, false⟩ _

theorem continued_divide_of_exact (h : policy.strategy = .exact) (run : Run α) :
    divide finder policy chunks run >>= continued policy chunks =
      run.gated ⟨2, phases, false⟩ (conclude chunks [] none true)
        (Run.gated ⟨3, phases, false⟩ (conclude chunks [] none true)
          (finish policy chunks { groups := (List.range chunks.length).map fun pos => [pos] })) := by
  unfold divide
  rw [h, Run.gated]
  dsimp only
  split
  next => rfl
  next => exact continued_checkpoint policy chunks _ ⟨3, phases, false⟩ _

theorem stoppable_continued_divide : Stoppable fun run : Run α =>
    divide finder policy chunks run >>= continued policy chunks := by
  cases hstrategy : policy.strategy with
  | communities =>
    simp only [continued_divide_of_communities finder policy chunks hstrategy]
    refine .afterComputing fun g _ => .gate _ _ (.afterComputing fun made _ => .gate _ _ ?_)
    exact stoppable_finish policy chunks made
  | exact =>
    simp only [continued_divide_of_exact finder policy chunks hstrategy]
    exact .gate _ _ (.gate _ _ (stoppable_finish policy chunks _))

theorem ofPopulation_eq (records : List Record) (run : Run α) :
    ofPopulation finder policy records run =
      run.gated ⟨1, phases, false⟩ (conclude (chunksFor policy.mode records) [] none true)
        fun run =>
          if (chunksFor policy.mode records).isEmpty then
            run.gated ⟨phases, phases, true⟩ (conclude [] [] none true)
              fun run => .ok (run, conclude [] [] none false)
          else divide finder policy (chunksFor policy.mode records) run >>=
            continued policy (chunksFor policy.mode records) := by
  unfold ofPopulation Run.gated
  dsimp only
  split
  next => rfl
  next =>
    split
    next =>
      split <;> rfl
    next => rfl

/-- The steps after the first checkpoint. -/
theorem stoppable_chunked (records : List Record) : Stoppable fun run : Run α =>
    if (chunksFor policy.mode records).isEmpty then
      run.gated ⟨phases, phases, true⟩ (conclude [] [] none true)
        fun run => .ok (run, conclude [] [] none false)
    else divide finder policy (chunksFor policy.mode records) run >>=
      continued policy (chunksFor policy.mode records) := by
  split
  next => exact .gate _ _ (.pure _)
  next => exact stoppable_continued_divide finder policy _

theorem stoppable_ofPopulation (records : List Record) :
    Stoppable (ofPopulation finder policy records : Run α → _) := by
  rw [funext (ofPopulation_eq finder policy records)]
  exact .gate _ _ (stoppable_chunked finder policy records)

theorem told_ofPopulation {records : List Record} {run after : Run α} {clustering : Clustering}
    (h : ofPopulation finder policy records run = .ok (after, clustering)) : after.Told := by
  rw [ofPopulation_eq] at h
  exact (stoppable_chunked finder policy records).told_gated h

end Steps

end RoleMining.Clustering
