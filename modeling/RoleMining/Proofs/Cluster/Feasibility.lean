import RoleMining.Proofs.Binary64.Exact
import RoleMining.Proofs.Cluster.Success

/-!
# When clustering succeeds

When every chunk is a group by itself, a clustering has three ends. A chunk whose weight has wrapped
around below one has no row in the table that further groups are joined by; and a chunk that covers
enough of a foreign group takes the best of them, which a number of groups that is no integer cannot
cut off. Everything else is clustered. Only the first two ends depend on overlap.
-/
namespace RoleMining

/-! ### Numbers of places -/

namespace Binary64

theorem power_nonneg (exponent : ℤ) : 0 ≤ power exponent := by
  rw [power_eq]
  positivity

theorem not_below_zero {x : Binary64} (h : x.isNegative = false) : x.below 0 = false := by
  have hzero : (0 : Binary64) = zero false := by decide +kernel
  rw [hzero]
  cases x with
  | nan => rfl
  | infinite negative => exact h
  | finite negative significand exponent normal =>
    obtain rfl : negative = false := h
    have hsize : (0 : ℚ) ≤ significand * power exponent :=
      mul_nonneg (Nat.cast_nonneg _) (power_nonneg exponent)
    simpa [below, zero, value] using hsize

theorem isNegative_ofRounded (negative : Bool) (significand : ℕ) (exponent : ℤ) :
    (ofRounded negative significand exponent).isNegative = negative := by
  unfold ofRounded
  split
  split <;> rfl

theorem add_of_finite {x y : Binary64} (hx : x.isFinite = true) (hy : y.isFinite = true) :
    x + y = ofRatSigned (x.value + y.value) (x.isNegative && y.isNegative) := by
  cases x with
  | nan => cases hx
  | infinite => cases hx
  | finite =>
    cases y with
    | nan => cases hy
    | infinite => cases hy
    | finite => rfl

theorem not_below_zero_ofRatSigned {q : ℚ} (hq : 0 ≤ q) (negativeZero : Bool) :
    (ofRatSigned q negativeZero).below 0 = false := by
  unfold ofRatSigned
  split
  next => cases negativeZero <;> decide +kernel
  next =>
    refine not_below_zero ((isNegative_ofRounded ..).trans ?_)
    exact decide_eq_false (not_lt.2 (Rat.num_nonneg.2 hq))

/-- A double of at least one stays at least zero when one is taken. -/
theorem not_below_zero_add {x : Binary64} (hx : (Number.float x).below 1 = false) {taken : ℤ}
    (htaken : taken = 0 ∨ taken = 1) : (x + ofInt (-taken)).below 0 = false := by
  have hfinite : (ofInt (-taken)).isFinite = true := by
    rcases htaken with rfl | rfl <;> decide +kernel
  have hvalue : -1 ≤ (ofInt (-taken)).value := by
    rcases htaken with rfl | rfl <;> decide +kernel
  cases x with
  | nan => rfl
  | infinite negative =>
    obtain rfl : negative = false := hx
    rcases htaken with rfl | rfl <;> decide +kernel
  | finite negative significand exponent normal =>
    have hone : (1 : ℚ) ≤ (finite negative significand exponent normal).value := by
      simpa [Number.below] using hx
    rw [add_of_finite rfl hfinite]
    exact not_below_zero_ofRatSigned (by linarith) _

end Binary64

/-! ### Joining -/

/-- A list of chunks is expanded, or the weight of one is below one. -/
theorem Chunk.expand_eq_error {chunks : List Chunk} (hmembers : ∀ c ∈ chunks, c.members ≠ [])
    {failure : Failure} (h : expand chunks = .error failure) :
    ∃ weight oid, failure = .weightTooSmall weight oid := by
  rw [expand_eq hmembers] at h
  obtain ⟨c, -, hmake⟩ := exists_of_mapM_eq_error h
  unfold Record.make at hmake
  split at hmake
  next => cases hmake
  next => exact ⟨_, _, (Except.error.inj hmake).symm⟩

namespace Cluster

section Joins

variable {policy : Policy} {home : Option ℕ} {unions : List IdSet} {properties : IdSet}
variable {x : Binary64}

theorem slots_eq_error (hmax : policy.maxClusters = .float x)
    (hlow : policy.maxClusters.below 1 = false) : slots policy home = .error .wrongType := by
  have htaken : (if home.isSome then 1 else 0 : ℤ) = 0 ∨ (if home.isSome then 1 else 0 : ℤ) = 1 := by
    cases home <;> simp
  rw [hmax] at hlow
  unfold slots
  rw [hmax]
  exact if_neg (by simp [Binary64.not_below_zero_add hlow htaken])

theorem joins_eq_nil (h : ranked policy unions home properties = []) :
    joins policy unions home properties = .ok [] := by
  have hnone := List.perm_nil.1 ((List.mergeSort_perm _ _).symm.trans (.of_eq h))
  unfold joins
  rw [hnone]
  rfl

theorem joins_eq_error (hmax : policy.maxClusters = .float x)
    (hlow : policy.maxClusters.below 1 = false) (h : ranked policy unions home properties ≠ []) :
    joins policy unions home properties = .error .wrongType := by
  have hsome : ((coversOf unions properties).filter (Cover.qualifies policy home)).isEmpty =
      false := by
    rw [List.isEmpty_eq_false_iff]
    intro hnone
    refine h ?_
    rw [ranked, hnone, List.mergeSort_nil]
  unfold joins
  rw [slots_eq_error hmax hlow]
  dsimp only
  rw [hsome]
  rfl

end Joins

/-- Some chunk covers enough of a group that it is not in. -/
def Attracts (policy : Policy) (chunks : List Chunk) (groups : List (List ℕ)) : Prop :=
  ∃ pos < chunks.length, ∃ g < groups.length, pos ∉ groups.getD g [] ∧
    (coverAt chunks groups pos g).Enough policy

section Overlapped

variable {policy : Policy} {chunks : List Chunk} {groups : List (List ℕ)} {x : Binary64}
variable (hmembers : ∀ c ∈ chunks, c.members ≠ []) (hweights : ∀ c ∈ chunks, 1 ≤ c.weight)
variable (hlt : ∀ group ∈ groups, ∀ pos ∈ group, pos < chunks.length)
variable (hgroups : groups.flatten.Nodup)
include hmembers hweights hlt hgroups

/-- Groups that attract no chunk stay as they are. -/
theorem overlapped_of_not_attracts (h : ¬ Attracts policy chunks groups) :
    overlapped policy chunks groups = .ok groups := by
  obtain ⟨rows, hrows⟩ := (Chunk.exists_expand_iff hmembers).2 hweights
  have hjoins (pos : ℕ) (hpos : pos ∈ List.range chunks.length) :
      joins policy (groups.map fun group => unionOf (picked chunks group)) (homeOf groups pos)
        ((chunks.map (·.propertySet)).getD pos .empty) = .ok [] := by
    refine joins_eq_nil (List.eq_nil_iff_forall_not_mem.2 fun c hc => ?_)
    obtain ⟨hg, he, -, henough, hhome⟩ := (mem_ranked_coverAt_iff hgroups).1 hc
    rw [he] at henough
    exact h ⟨pos, List.mem_range.1 hpos, c.group, hg, hhome, henough⟩
  rw [overlapped_eq hmembers hlt hrows,
    mapM_eq_ok_map (g := fun pos => (pos, [])) fun pos hpos => by rw [hjoins pos hpos]; rfl]
  refine congrArg Except.ok ?_
  simp [List.filter_map, Function.comp_def]

/-- A number of places that is no integer cannot be given out. -/
theorem overlapped_of_attracts (hshared : policy.minShared.below 1 = false)
    (hmax : policy.maxClusters = .float x) (hlow : policy.maxClusters.below 1 = false)
    (h : Attracts policy chunks groups) :
    overlapped policy chunks groups = .error .wrongType := by
  obtain ⟨rows, hrows⟩ := (Chunk.exists_expand_iff hmembers).2 hweights
  obtain ⟨pos, hpos, g, hg, hhome, henough⟩ := h
  have hranked := List.ne_nil_of_mem (coverAt_mem_ranked hgroups hshared hg henough hhome)
  rw [overlapped_eq hmembers hlt hrows, mapM_eq_error (List.mem_range.2 hpos) (e := .wrongType)]
  · rfl
  · rw [joins_eq_error hmax hlow hranked]
    rfl
  · intro other _ failure hfails
    by_cases hnone : ranked policy (groups.map fun group => unionOf (picked chunks group))
        (homeOf groups other) ((chunks.map (·.propertySet)).getD other .empty) = []
    · rw [joins_eq_nil hnone] at hfails
      cases hfails
    · rw [joins_eq_error hmax hlow hnone] at hfails
      exact (Except.error.inj hfails).symm

end Overlapped

end Cluster

/-! ### Chunks by themselves -/

namespace Chunk

/-- A chunk is large enough for a cluster of its own. -/
structure IsLarge (policy : Policy) (k : Chunk) : Prop where
  members : (Number.int k.weight).below policy.minMembers = false
  properties : (Number.int k.propertySet.size).below policy.minProperties = false

/-- A chunk covers enough of another one's properties to join it. -/
structure Covers (policy : Policy) (k other : Chunk) : Prop where
  coverage : policy.minCoverage.atMost (.float (Arithmetic.ratio
    (k.propertySet.inter other.propertySet).size other.propertySet.size)) = true
  shared : policy.minShared.atMost (.int (k.propertySet.inter other.propertySet).size) = true

end Chunk

namespace Cluster

variable {policy : Policy} {chunks : List Chunk} {k k' : Chunk} {pos pos' g : ℕ}

/-- Every position by itself. -/
def singletons (n : ℕ) : List (List ℕ) := (List.range n).map fun pos => [pos]

/-- The groups of the large chunks, each by itself. -/
def largeSingletons (policy : Policy) (chunks : List Chunk) : List (List ℕ) :=
  (singletons chunks.length).filter (isLarge policy chunks)

theorem lt_of_mem_largeSingletons {group : List ℕ} (h : group ∈ largeSingletons policy chunks) :
    ∀ pos ∈ group, pos < chunks.length :=
  (divides_singletons chunks.length).lt (List.mem_of_mem_filter h)

theorem nodup_largeSingletons (policy : Policy) (chunks : List Chunk) :
    (largeSingletons policy chunks).flatten.Nodup :=
  (divides_singletons chunks.length).nodup.sublist List.filter_sublist.flatten

theorem picked_singleton (h : chunks[pos]? = some k) : picked chunks [pos] = [k] := by
  simp [picked, h]

theorem isLarge_singleton_iff (h : chunks[pos]? = some k) :
    isLarge policy chunks [pos] = true ↔ k.IsLarge policy := by
  have hunion : unionOf [k] = k.propertySet := rfl
  unfold isLarge
  rw [picked_singleton h, hunion]
  simp only [List.map_cons, List.map_nil, List.sum_singleton, Bool.not_eq_true',
    Bool.or_eq_false_iff]
  exact ⟨fun h => ⟨h.1, h.2⟩, fun h => ⟨h.members, h.properties⟩⟩

theorem mem_largeSingletons_iff {group : List ℕ} : group ∈ largeSingletons policy chunks ↔
    ∃ pos k, chunks[pos]? = some k ∧ group = [pos] ∧ k.IsLarge policy := by
  rw [largeSingletons, List.mem_filter, singletons, List.mem_map]
  constructor
  · intro h
    obtain ⟨⟨pos, hpos, rfl⟩, hlarge⟩ := h
    have hat := List.getElem?_eq_getElem (List.mem_range.1 hpos)
    exact ⟨pos, _, hat, rfl, (isLarge_singleton_iff hat).1 hlarge⟩
  · intro h
    obtain ⟨pos, k, hat, rfl, hlarge⟩ := h
    have hpos := (List.getElem?_eq_some_iff.1 hat).1
    exact ⟨⟨pos, List.mem_range.2 hpos, rfl⟩, (isLarge_singleton_iff hat).2 hlarge⟩

theorem largeSingletons_ne_nil_iff : largeSingletons policy chunks ≠ [] ↔
    ∃ k ∈ chunks, k.IsLarge policy := by
  constructor
  · intro h
    obtain ⟨group, hgroup⟩ := List.exists_mem_of_ne_nil _ h
    obtain ⟨pos, k, hat, -, hlarge⟩ := mem_largeSingletons_iff.1 hgroup
    exact ⟨k, List.mem_of_getElem? hat, hlarge⟩
  · intro h
    obtain ⟨k, hk, hlarge⟩ := h
    obtain ⟨pos, hat⟩ := List.getElem?_of_mem hk
    exact List.ne_nil_of_mem (mem_largeSingletons_iff.2 ⟨pos, k, hat, rfl, hlarge⟩)

/-- Over the group of one chunk lies what the two share. -/
theorem enough_coverAt_iff {groups : List (List ℕ)} (hg : groups[g]? = some [pos'])
    (hpos : chunks[pos]? = some k) (hpos' : chunks[pos']? = some k') :
    (coverAt chunks groups pos g).Enough policy ↔ k.Covers policy k' := by
  have hunion : unionOf [k'] = k'.propertySet := rfl
  have hcover : coverAt chunks groups pos g =
      { group := g, shared := (k.propertySet.inter k'.propertySet).size,
        coverage := Arithmetic.ratio (k.propertySet.inter k'.propertySet).size
          k'.propertySet.size } := by
    simp [coverAt, coverOf, hg, hpos, picked_singleton hpos', hunion]
  rw [hcover]
  exact ⟨fun h => ⟨h.coverage, h.shared⟩, fun h => ⟨h.coverage, h.shared⟩⟩

/-- Chunks by themselves attract one another when one covers enough of another. -/
theorem attracts_singletons_iff (hchunks : (chunks.map (·.propertySet)).Nodup) :
    Attracts policy chunks (largeSingletons policy chunks) ↔
      ∃ k ∈ chunks, ∃ other ∈ chunks, k ≠ other ∧ other.IsLarge policy ∧
        k.Covers policy other := by
  constructor
  · intro h
    obtain ⟨pos, hpos, g, hg, hhome, henough⟩ := h
    have hat := List.getElem?_eq_getElem hpos
    have hgroup := List.getElem?_eq_getElem hg
    obtain ⟨pos', other, hother, he, hlarge⟩ := mem_largeSingletons_iff.1 (List.getElem_mem hg)
    rw [he] at hgroup
    refine ⟨_, List.mem_of_getElem? hat, other, List.mem_of_getElem? hother, fun hsame => ?_,
      hlarge, (enough_coverAt_iff hgroup hat hother).1 henough⟩
    have hpositions : pos = pos' := (List.getElem?_inj hpos hchunks.of_map).1
      (hat.trans ((congrArg some hsame).trans hother.symm))
    exact hhome (mem_getD_iff.2 ⟨_, hgroup, List.mem_singleton.2 hpositions⟩)
  · intro h
    obtain ⟨k, hk, other, hother, hne, hlarge, hcovers⟩ := h
    obtain ⟨pos, hpos⟩ := List.getElem?_of_mem hk
    obtain ⟨pos', hpos'⟩ := List.getElem?_of_mem hother
    obtain ⟨g, hg⟩ := List.getElem?_of_mem
      (mem_largeSingletons_iff.2 ⟨pos', other, hpos', rfl, hlarge⟩)
    refine ⟨pos, (List.getElem?_eq_some_iff.1 hpos).1, g, (List.getElem?_eq_some_iff.1 hg).1, ?_,
      (enough_coverAt_iff hg hpos hpos').2 hcovers⟩
    intro hhome
    obtain ⟨group, hgroup, hmem⟩ := mem_getD_iff.1 hhome
    obtain rfl := Option.some_inj.1 (hg.symm.trans hgroup)
    obtain rfl := List.mem_singleton.1 hmem
    exact hne (Option.some_inj.1 (hpos.symm.trans hpos'))

end Cluster

/-! ### Clustering without communities -/

namespace Run

variable {α β : Type} {run : Run α}

theorem Undisturbed.checkpoint (h : run.Undisturbed) (report : Report) :
    (run.checkpoint report).Undisturbed := (run.continues_checkpoint report).undisturbed h

/-- Nothing stops an undisturbed run at a gate. -/
theorem Undisturbed.gated_eq (h : run.Undisturbed) (report : Report) (early : β)
    (work : Run α → Except Failure (Run α × β)) :
    run.gated report early work = work (run.checkpoint report) :=
  if_neg (by simp [(h.checkpoint report).running])

end Run

namespace Clustering

variable {α : Type} {session : Session} {policy : Policy} {chunks : List Chunk}
variable {records : List Record} {run : Run α}

/-- The chunks that a table is made of have weights for it. -/
def Weighable (policy : Policy) (chunks : List Chunk) : Prop :=
  policy.allowOverlap = true → (∃ k ∈ chunks, k.IsLarge policy) → ∀ k ∈ chunks, 1 ≤ k.weight

/-- Where a chunk joins another one, there is a whole number of places. -/
def Placeable (policy : Policy) (chunks : List Chunk) : Prop :=
  policy.allowOverlap = true →
    (∃ k ∈ chunks, ∃ other ∈ chunks, k ≠ other ∧ other.IsLarge policy ∧ k.Covers policy other) →
    ∃ m, policy.maxClusters = .int m

theorem joinedGroups_eq_overlapped (hoverlap : policy.allowOverlap = true)
    (hlarge : ∃ k ∈ chunks, k.IsLarge policy) :
    joinedGroups policy chunks (Cluster.largeSingletons policy chunks) =
      Cluster.overlapped policy chunks (Cluster.largeSingletons policy chunks) := by
  have hsome := Cluster.largeSingletons_ne_nil_iff.2 hlarge
  refine if_pos ?_
  rw [hoverlap, Bool.true_and, Bool.not_eq_true', List.isEmpty_eq_false_iff]
  exact hsome

section Joined

variable (hpolicy : session.check = .ok policy)
variable (hmembers : ∀ c ∈ chunks, c.members ≠ [])
variable (hchunks : (chunks.map (·.propertySet)).Nodup)
include hmembers

theorem joinedGroups_of_not_weighable (h : ¬ Weighable policy chunks) : ∃ weight oid,
    joinedGroups policy chunks (Cluster.largeSingletons policy chunks) =
      .error (.weightTooSmall weight oid) := by
  unfold Weighable at h
  push Not at h
  obtain ⟨hoverlap, hlarge, k, hk, hweight⟩ := h
  rw [joinedGroups_eq_overlapped hoverlap hlarge]
  cases hexpand : Chunk.expand chunks with
  | ok rows =>
    have hone := (Chunk.exists_expand_iff hmembers).1 ⟨rows, hexpand⟩ k hk
    omega
  | error failure =>
    obtain ⟨weight, oid, rfl⟩ := Chunk.expand_eq_error hmembers hexpand
    refine ⟨weight, oid, ?_⟩
    unfold Cluster.overlapped
    rw [hexpand]
    rfl

include hpolicy hchunks

theorem joinedGroups_of_not_placeable (hweigh : Weighable policy chunks)
    (h : ¬ Placeable policy chunks) :
    joinedGroups policy chunks (Cluster.largeSingletons policy chunks) = .error .wrongType := by
  unfold Placeable at h
  push Not at h
  obtain ⟨hoverlap, hjoins, hplaces⟩ := h
  have hlarge : ∃ k ∈ chunks, k.IsLarge policy := by
    obtain ⟨-, -, other, hother, -, hlarge, -⟩ := hjoins
    exact ⟨other, hother, hlarge⟩
  rw [joinedGroups_eq_overlapped hoverlap hlarge]
  cases hmax : policy.maxClusters with
  | int m => exact absurd hmax (hplaces m)
  | float x =>
    exact Cluster.overlapped_of_attracts hmembers (hweigh hoverlap hlarge)
      (fun _ => Cluster.lt_of_mem_largeSingletons)
      (Cluster.nodup_largeSingletons policy chunks)
      (Session.one_le_minShared_of_check hpolicy) hmax
      (Session.one_le_maxClusters_of_check hpolicy)
      ((Cluster.attracts_singletons_iff hchunks).2 hjoins)

theorem exists_joinedGroups (hweigh : Weighable policy chunks) (hplace : Placeable policy chunks) :
    ∃ extended, joinedGroups policy chunks (Cluster.largeSingletons policy chunks) = .ok extended ∧
      ∀ group ∈ extended, ∀ pos ∈ group, pos < chunks.length := by
  have hlt : ∀ group ∈ Cluster.largeSingletons policy chunks, ∀ pos ∈ group, pos < chunks.length :=
    fun _ => Cluster.lt_of_mem_largeSingletons
  by_cases hjoins : policy.allowOverlap = true ∧ ∃ k ∈ chunks, k.IsLarge policy
  · obtain ⟨hoverlap, hlarge⟩ := hjoins
    have hweights := hweigh hoverlap hlarge
    have hgroups := Cluster.nodup_largeSingletons policy chunks
    cases hmax : policy.maxClusters with
    | int m => exact exists_joined hpolicy hmax hmembers hweights hgroups hlt
    | float x =>
      rw [joinedGroups_eq_overlapped hoverlap hlarge,
        Cluster.overlapped_of_not_attracts hmembers hweights hlt hgroups]
      · exact ⟨_, rfl, hlt⟩
      · intro hattracts
        obtain ⟨m, hm⟩ := hplace hoverlap ((Cluster.attracts_singletons_iff hchunks).1 hattracts)
        cases hmax.symm.trans hm
  · refine ⟨_, if_neg ?_, hlt⟩
    intro hboth
    rw [Bool.and_eq_true, Bool.not_eq_true', List.isEmpty_eq_false_iff] at hboth
    exact hjoins ⟨hboth.1, Cluster.largeSingletons_ne_nil_iff.1 hboth.2⟩

end Joined

/-- After the chunks are made nothing but joining can go wrong. -/
theorem exists_ofPopulation_eq (finder : CommunityFinder) (hexact : policy.strategy = .exact)
    (hsome : chunksFor policy.mode records ≠ []) (hrun : run.Undisturbed) :
    ∃ mid : Run α, ofPopulation finder policy records run =
      joined policy (chunksFor policy.mode records)
        { groups := Cluster.singletons (chunksFor policy.mode records).length }
        (Cluster.largeSingletons policy (chunksFor policy.mode records)) mid := by
  have hlarge : Cluster.largeGroups policy (chunksFor policy.mode records)
      (Cluster.singletons (chunksFor policy.mode records).length) =
        .ok (Cluster.largeSingletons policy (chunksFor policy.mode records)) :=
    Cluster.largeGroups_eq fun _ => (divides_singletons _).lt
  have hfirst := hrun.checkpoint ⟨1, phases, false⟩
  have hsecond := hfirst.checkpoint ⟨2, phases, false⟩
  have hthird := hsecond.checkpoint ⟨3, phases, false⟩
  refine ⟨(((run.checkpoint ⟨1, phases, false⟩).checkpoint ⟨2, phases, false⟩).checkpoint
    ⟨3, phases, false⟩).checkpoint ⟨4, phases, false⟩, ?_⟩
  rw [ofPopulation_eq, hrun.gated_eq, if_neg (by simpa using hsome),
    continued_divide_of_exact finder policy _ hexact, hfirst.gated_eq, hsecond.gated_eq, finish_eq]
  refine (congrArg (· >>= _) hlarge).trans ?_
  exact hthird.gated_eq _ _ _

theorem ofPopulation_eq_error (finder : CommunityFinder) (hexact : policy.strategy = .exact)
    (hrun : run.Undisturbed) {failure : Failure}
    (h : joinedGroups policy (chunksFor policy.mode records)
      (Cluster.largeSingletons policy (chunksFor policy.mode records)) = .error failure) :
    ofPopulation finder policy records run = .error failure := by
  have hsome : chunksFor policy.mode records ≠ [] := by
    intro hnone
    rw [hnone] at h
    have hskip : joinedGroups policy [] (Cluster.largeSingletons policy []) = .ok [] :=
      if_neg (by simp [Cluster.largeSingletons, Cluster.singletons])
    cases h.symm.trans hskip
  obtain ⟨mid, hmid⟩ := exists_ofPopulation_eq finder hexact hsome hrun
  exact hmid.trans (congrArg (· >>= _) h)

theorem succeeds_ofPopulation_of_exact (finder : CommunityFinder)
    (hpolicy : session.check = .ok policy) (hexact : policy.strategy = .exact)
    (hweigh : Weighable policy (chunksFor policy.mode records))
    (hplace : Placeable policy (chunksFor policy.mode records)) :
    Succeeds (ofPopulation finder policy records : Run α → _) := by
  obtain ⟨kind, hchunks⟩ := Analysis.exists_chunksFor_eq policy.mode records
  rw [funext (ofPopulation_eq finder policy records)]
  refine .gate _ _ ?_
  split
  next => exact .gate _ _ (.pure _)
  next =>
    rw [hchunks] at hweigh hplace ⊢
    simp only [continued_divide_of_exact finder policy _ hexact]
    refine .gate _ _ (.gate _ _ (succeeds_finish (divides_singletons _) ?_))
    exact exists_joinedGroups hpolicy (fun _ => Chunk.members_ne_nil)
      (Chunk.nodup_propertySet_aggregate ..) hweigh hplace

end Clustering
end RoleMining
