import RoleMining.Proofs.Detection.Closure

/-!
# Copies of identifiers

Identifiers can give way to copies that weigh together what each of them weighed; a set then gives
way to all copies of its elements. Weights, inclusions and intersections are kept. So where every
chunk gives way to the copies of both its sides, a chunk survives exactly when its copy does, and
the patterns among the copies are the copies of the patterns.
-/
namespace RoleMining

/-- Identifiers in the place of others, and which one each of them is a copy of. -/
structure Copying where
  copies : IdSet
  origin : String → String

namespace Copying

variable {k : Copying} {ids s t : IdSet} {weight weight' : String → ℤ}

/-- All copies of the elements of a set. -/
def spread (k : Copying) (s : IdSet) : IdSet := k.copies.filter fun x => decide (k.origin x ∈ s)

@[simp] theorem mem_spread {x : String} : x ∈ k.spread s ↔ x ∈ k.copies ∧ k.origin x ∈ s := by
  simp [spread]

/-- Every identifier has copies, which weigh together what it weighs. -/
structure Faithful (k : Copying) (ids : IdSet) (weight weight' : String → ℤ) : Prop where
  covers : ∀ x ∈ ids, ∃ y ∈ k.copies, k.origin y = x
  weighs : ∀ x ∈ ids, ∑ y ∈ k.copies.toFinset with k.origin y = x, weight' y = weight x

theorem spread_mono (h : s ⊆ t) : k.spread s ⊆ k.spread t := by
  intro x hx
  rw [mem_spread] at hx ⊢
  exact ⟨hx.1, h _ hx.2⟩

namespace Faithful

variable (hk : k.Faithful ids weight weight')
include hk

theorem mono (h : s ⊆ ids) : k.Faithful s weight weight' where
  covers x hx := hk.covers x (h x hx)
  weighs x hx := hk.weighs x (h x hx)

theorem spread_subset_iff (hs : s ⊆ ids) : k.spread s ⊆ k.spread t ↔ s ⊆ t := by
  refine ⟨fun h x hx => ?_, spread_mono⟩
  obtain ⟨y, hy, rfl⟩ := hk.covers x (hs x hx)
  exact (mem_spread.1 (h y (mem_spread.2 ⟨hy, hx⟩))).2

theorem spread_inj (hs : s ⊆ ids) (ht : t ⊆ ids) (h : k.spread s = k.spread t) : s = t := by
  have hst : s ⊆ t := (hk.spread_subset_iff hs).1 fun x hx => h ▸ hx
  have hts : t ⊆ s := (hk.spread_subset_iff ht).1 fun x hx => h ▸ hx
  exact IdSet.ext_mem fun x => ⟨hst x, hts x⟩

/-- The weights of the copies are summed up origin by origin. -/
theorem weighted_spread (hs : s ⊆ ids) : (k.spread s).weighted weight' = s.weighted weight := by
  have horigin : ∀ y ∈ (k.spread s).toFinset, k.origin y ∈ s.toFinset := fun y hy =>
    IdSet.mem_toFinset.2 (mem_spread.1 (IdSet.mem_toFinset.1 hy)).2
  have hfiber : ∀ x ∈ s.toFinset, {y ∈ (k.spread s).toFinset | k.origin y = x} =
      {y ∈ k.copies.toFinset | k.origin y = x} := by
    intro x hx
    ext y
    simp only [Finset.mem_filter, IdSet.mem_toFinset, mem_spread] at hx ⊢
    exact ⟨fun h => ⟨h.1.1, h.2⟩, fun h => ⟨⟨h.1, h.2 ▸ hx⟩, h.2⟩⟩
  rw [IdSet.weighted_eq_sum, IdSet.weighted_eq_sum]
  calc
    ∑ y ∈ (k.spread s).toFinset, weight' y =
        ∑ x ∈ s.toFinset, ∑ y ∈ (k.spread s).toFinset with k.origin y = x, weight' y :=
      (Finset.sum_fiberwise_of_maps_to horigin weight').symm
    _ = ∑ x ∈ s.toFinset, weight x := by
      refine Finset.sum_congr rfl fun x hx => ?_
      rw [hfiber x hx]
      exact hk.weighs x (hs x (IdSet.mem_toFinset.1 hx))

theorem reaches_spread {size : Number} (hs : s ⊆ ids) :
    reaches weight' size (k.spread s) = reaches weight size s := by
  unfold reaches
  rw [hk.weighted_spread hs]

end Faithful

/-! ### Nothing but itself -/

/-- Every identifier is its only copy. -/
def itself (ids : IdSet) : Copying := ⟨ids, id⟩

@[simp] theorem copies_itself (ids : IdSet) : (itself ids).copies = ids := rfl

@[simp] theorem origin_itself (ids : IdSet) (x : String) : (itself ids).origin x = x := rfl

theorem spread_itself (hs : s ⊆ ids) : (itself ids).spread s = s := by
  refine IdSet.ext_mem fun x => ?_
  rw [mem_spread]
  exact and_iff_right_of_imp (hs x)

theorem faithful_itself (ids : IdSet) (weight : String → ℤ) :
    (itself ids).Faithful ids weight weight where
  covers x hx := ⟨x, hx, rfl⟩
  weighs x hx := by
    have hfiber : {y ∈ (itself ids).copies.toFinset | (itself ids).origin y = x} = {x} := by
      ext y
      rw [Finset.mem_filter, IdSet.mem_toFinset, Finset.mem_singleton]
      exact ⟨fun h => h.2, fun h => ⟨h ▸ hx, h⟩⟩
    rw [hfiber, Finset.sum_singleton]

/-! ### Intersections -/

/-- The copies of an intersection are the intersection of the copies. -/
theorem mem_spread_meet {chosen : List IdSet} (hne : chosen ≠ []) {K : IdSet}
    (hK : ∀ x, x ∈ K ↔ ∀ s ∈ chosen, x ∈ s) (x : String) :
    x ∈ k.spread K ↔ ∀ s ∈ chosen.map k.spread, x ∈ s := by
  simp only [mem_spread, hK, List.forall_mem_map]
  constructor
  · exact fun h s hs => ⟨h.1, h.2 s hs⟩
  · intro h
    obtain ⟨s, hs⟩ := List.exists_mem_of_ne_nil chosen hne
    exact ⟨(h s hs).1, fun t ht => (h t ht).2⟩

theorem isMeet_spread_iff {n : ℕ} (hn : 1 ≤ n) {sets : List IdSet} {K' : IdSet} :
    IsMeet n (sets.map k.spread) K' ↔ ∃ K, IsMeet n sets K ∧ K' = k.spread K := by
  have nonempty {chosen : List IdSet} (hlen : chosen.length = n) : chosen ≠ [] :=
    List.ne_nil_of_length_pos (by omega)
  constructor
  · intro hmeet
    rcases hmeet with ⟨chosen', hsub', hlen', hmem'⟩
    obtain ⟨chosen, hsub, rfl⟩ := List.sublist_map_iff.1 hsub'
    have hlen : chosen.length = n := List.length_map k.spread ▸ hlen'
    obtain ⟨K, hK⟩ := exists_meet (nonempty hlen)
    refine ⟨K, ⟨chosen, hsub, hlen, hK⟩, IdSet.ext_mem fun x => ?_⟩
    rw [hmem', mem_spread_meet (nonempty hlen) hK]
  · intro hmeet
    rcases hmeet with ⟨K, ⟨chosen, hsub, hlen, hK⟩, rfl⟩
    exact ⟨chosen.map k.spread, hsub.map _, (List.length_map _).trans hlen,
      mem_spread_meet (nonempty hlen) hK⟩

end Copying

/-! ### References -/

/-- What a search reads of a chunk. -/
def Chunk.sides (c : Chunk) : IdSet × IdSet := (c.propertySet, .ofList c.members)

/-- A pattern with copies in the place of its identifiers. -/
def Pattern.spread (bodies supports : Copying) (p : Pattern) : Pattern :=
  { p with properties := bodies.spread p.properties, members := supports.spread p.members }

namespace Reference

/-- Whether chunks with a property set survive. -/
def survives (r : Reference) (P : IdSet) : Bool :=
  let share := Binary64.ofRat (((P.weighted r.supportWeight : ℤ) : ℚ) /
    ((r.population.weighted r.supportWeight : ℤ) : ℚ))
  r.thresholds.band.low.atMost (.float share) &&
    Number.atMost (.float share) r.thresholds.band.high

variable {r r' : Reference} {bodies supports : Copying} {P S B S' B' : IdSet}

theorem mem_population_iff {x : String} :
    x ∈ r.population ↔ ∃ q ∈ r.chunks.map Chunk.sides, x ∈ q.1 := by
  simp [population, Chunk.sides, Chunk.propertySet]

theorem subset_population {q : IdSet × IdSet} (hq : q ∈ r.chunks.map Chunk.sides) :
    q.1 ⊆ r.population :=
  fun _ hx => mem_population_iff.2 ⟨q, hq, hx⟩

theorem sides_survivors : r.survivors.map Chunk.sides =
    (r.chunks.map Chunk.sides).filter fun q => r.survives q.1 := by
  rw [List.filter_map]
  rfl

theorem supportSets_eq_map_sides : r.supportSets = (r.survivors.map Chunk.sides).map Prod.fst := by
  rw [List.map_map]
  rfl

theorem isBody_iff_sides : r.IsBody S B ↔
    ∀ x, x ∈ B ↔ ∃ q ∈ r.survivors.map Chunk.sides, S ⊆ q.1 ∧ x ∈ q.2 := by
  simp [IsBody, Chunk.sides]

/-- In one reference stand the copies of what stands in the other. -/
structure IsCopy (r r' : Reference) (bodies supports : Copying) : Prop where
  thresholds_eq : r'.thresholds = r.thresholds
  bodies_faithful :
    bodies.Faithful (.ofList (r.chunks.flatMap (·.members))) r.bodyWeight r'.bodyWeight
  supports_faithful : supports.Faithful r.population r.supportWeight r'.supportWeight
  sides_perm : (r'.chunks.map Chunk.sides).Perm
    ((r.chunks.map Chunk.sides).map (Prod.map supports.spread bodies.spread))

namespace IsCopy

variable (h : r.IsCopy r' bodies supports)
include h

theorem population_eq : r'.population = supports.spread r.population := by
  refine IdSet.ext_mem fun x => ?_
  simp only [mem_population_iff, h.sides_perm.mem_iff, Copying.mem_spread]
  constructor
  · intro hx
    rcases hx with ⟨q', hq', hx⟩
    obtain ⟨q, hq, rfl⟩ := List.mem_map.1 hq'
    obtain ⟨hcopy, horigin⟩ := Copying.mem_spread.1 hx
    exact ⟨hcopy, q, hq, horigin⟩
  · intro hx
    rcases hx with ⟨hcopy, q, hq, horigin⟩
    exact ⟨_, List.mem_map_of_mem hq, Copying.mem_spread.2 ⟨hcopy, horigin⟩⟩

/-- A chunk is in the band exactly when its copy is: both shares are one quotient. -/
theorem survives_spread (hP : P ⊆ r.population) :
    r'.survives (supports.spread P) = r.survives P := by
  unfold survives
  rw [h.population_eq, h.supports_faithful.weighted_spread hP,
    h.supports_faithful.weighted_spread fun _ hx => hx, h.thresholds_eq]

theorem survivors_perm : (r'.survivors.map Chunk.sides).Perm
    ((r.survivors.map Chunk.sides).map (Prod.map supports.spread bodies.spread)) := by
  rw [sides_survivors, sides_survivors]
  refine (h.sides_perm.filter _).trans (.of_eq ?_)
  rw [List.filter_map]
  congr 1
  exact List.filter_congr fun q hq => h.survives_spread (subset_population hq)

theorem supportSets_perm : r'.supportSets.Perm (r.supportSets.map supports.spread) := by
  rw [supportSets_eq_map_sides, supportSets_eq_map_sides]
  refine (h.survivors_perm.map Prod.fst).trans (.of_eq ?_)
  simp only [List.map_map]
  rfl

theorem isMeet_iff {n : ℕ} (hn : 1 ≤ n) :
    IsMeet n r'.supportSets S' ↔ ∃ S, IsMeet n r.supportSets S ∧ S' = supports.spread S :=
  (isMeet_perm_iff h.supportSets_perm).trans (Copying.isMeet_spread_iff hn)

theorem isCandidate_iff :
    r'.IsCandidate S' ↔ ∃ S, r.IsCandidate S ∧ S' = supports.spread S := by
  have heavy {n : ℕ} {S : IdSet} (hn : 1 ≤ n) (hmeet : IsMeet n r.supportSets S) :
      reaches r'.supportWeight r'.thresholds.minSupport (supports.spread S) =
        reaches r.supportWeight r.thresholds.minSupport S := by
    rw [h.thresholds_eq]
    exact h.supports_faithful.reaches_spread (subset_population_of_isMeet hn hmeet)
  constructor
  · intro hcandidate
    rcases hcandidate with ⟨hheavy, n, hlow, hhigh, hmeet'⟩
    obtain ⟨S, hmeet, rfl⟩ := (h.isMeet_iff hlow).1 hmeet'
    exact ⟨S, ⟨heavy hlow hmeet ▸ hheavy, n, hlow, hhigh, hmeet⟩, rfl⟩
  · intro hcandidate
    rcases hcandidate with ⟨S, ⟨hheavy, n, hlow, hhigh, hmeet⟩, rfl⟩
    exact ⟨(heavy hlow hmeet).trans hheavy, n, hlow, hhigh, (h.isMeet_iff hlow).2 ⟨S, hmeet, rfl⟩⟩

theorem isBody_spread (hS : S ⊆ r.population) (hB : r.IsBody S B) :
    r'.IsBody (supports.spread S) (bodies.spread B) := by
  rw [isBody_iff_sides] at hB ⊢
  intro x
  simp only [hB, h.survivors_perm.mem_iff, List.mem_map, exists_exists_and_eq_and, Prod.map_fst,
    Prod.map_snd, Copying.mem_spread, h.supports_faithful.spread_subset_iff hS]
  constructor
  · intro hx
    rcases hx with ⟨hcopy, q, hq, hSq, hxq⟩
    exact ⟨q, hq, hSq, hcopy, hxq⟩
  · intro hx
    rcases hx with ⟨q, hq, hSq, hcopy, hxq⟩
    exact ⟨hcopy, q, hq, hSq, hxq⟩

/-- Supported bodies are the copies of supported bodies. -/
theorem supports_iff : r'.Supports S' B' ↔
    ∃ S B, r.Supports S B ∧ S' = supports.spread S ∧ B' = bodies.spread B := by
  have large {S B : IdSet} (hB : r.IsBody S B) :
      reaches r'.bodyWeight r'.thresholds.minIntersection (bodies.spread B) =
        reaches r.bodyWeight r.thresholds.minIntersection B := by
    rw [h.thresholds_eq]
    exact h.bodies_faithful.reaches_spread hB.subset_members
  constructor
  · intro hsupports
    obtain ⟨S, hS, rfl⟩ := h.isCandidate_iff.1 hsupports.candidate
    have hB : r.IsBody S (r.search.bodyOf S) := isBody_bodyOf S
    have hbody := h.isBody_spread hS.subset_population hB
    obtain rfl := hsupports.body.unique hbody
    exact ⟨S, _, ⟨hS, hB, large hB ▸ hsupports.large⟩, rfl, rfl⟩
  · intro hsupports
    rcases hsupports with ⟨S, B, hS, rfl, rfl⟩
    exact ⟨h.isCandidate_iff.2 ⟨S, hS.candidate, rfl⟩,
      h.isBody_spread hS.candidate.subset_population hS.body, (large hS.body).trans hS.large⟩

theorem weighted_support (hS : r.Supports S B) :
    (supports.spread S).weighted r'.supportWeight = S.weighted r.supportWeight :=
  h.supports_faithful.weighted_spread hS.candidate.subset_population

theorem weighted_body (hS : r.Supports S B) :
    (bodies.spread B).weighted r'.bodyWeight = B.weighted r.bodyWeight :=
  h.bodies_faithful.weighted_spread hS.body.subset_members

/-! ### Patterns -/

section Patterns

variable {α : Type} {related related' : String → String → Prop} {mode : Mode}
variable {run after run' after' : Run α} {patterns patterns' : List Pattern}
variable (hdescribes : Chunk.Describes related r.chunks)
variable (hdescribes' : Chunk.Describes related' r'.chunks)
include hdescribes hdescribes'

/-- The order of supports among the copies does not matter: a body has one support only. -/
theorem isPattern_iff {p' : Pattern} :
    r'.IsPattern mode p' ↔ ∃ p, r.IsPattern mode p ∧ p' = p.spread bodies supports := by
  constructor
  · intro hp'
    obtain ⟨S, B, hS, hmembers, hproperties⟩ := h.supports_iff.1 hp'.finding.toSupports
    have hsupport := hp'.support_eq
    have hscore := hp'.score_eq
    rw [hmembers, h.weighted_support hS] at hsupport hscore
    rw [hproperties, h.weighted_body hS] at hscore
    refine ⟨{ p' with properties := B, members := S },
      ⟨hS.isFinding hdescribes, hsupport, hscore, hp'.mode_eq⟩, ?_⟩
    rw [Pattern.spread, ← hmembers, ← hproperties]
  · intro hp
    rcases hp with ⟨p, hp, rfl⟩
    have hS := hp.finding.toSupports
    have hS' := h.supports_iff.2 ⟨_, _, hS, rfl, rfl⟩
    have hsupport := hp.support_eq
    have hscore := hp.score_eq
    rw [← h.weighted_support hS] at hsupport hscore
    rw [← h.weighted_body hS] at hscore
    exact ⟨hS'.isFinding hdescribes', hsupport, hscore, hp.mode_eq⟩

variable (hr : Chunk.Consistent r.bodyWeight r.supportWeight r.chunks)
variable (hr' : Chunk.Consistent r'.bodyWeight r'.supportWeight r'.chunks)
include hr hr'

omit hdescribes' in
/-- The scores are the same, so the copies are in range when the originals are. -/
theorem exists_detect
    (hdetect : Pattern.detect mode r.thresholds r.chunks run = .ok (after, patterns))
    (hafter : after.cancelled = false) (mode' : Mode) (run' : Run α) :
    ∃ after' patterns',
      Pattern.detect mode' r'.thresholds r'.chunks run' = .ok (after', patterns') := by
  refine Reference.exists_detect hr' mode' run' fun S' B' hS' => ?_
  obtain ⟨S, B, hS, rfl, rfl⟩ := h.supports_iff.1 hS'
  rw [h.weighted_body hS, h.weighted_support hS]
  exact isSome_score_of_detect hr hdetect hafter hdescribes hS

omit hdescribes in
theorem exists_detect_origin
    (hdetect' : Pattern.detect mode r'.thresholds r'.chunks run' = .ok (after', patterns'))
    (hafter' : after'.cancelled = false) (mode' : Mode) (run : Run α) :
    ∃ after patterns,
      Pattern.detect mode' r.thresholds r.chunks run = .ok (after, patterns) := by
  refine Reference.exists_detect hr mode' run fun S B hS => ?_
  rw [← h.weighted_body hS, ← h.weighted_support hS]
  exact isSome_score_of_detect hr' hdetect' hafter' hdescribes'
    (h.supports_iff.2 ⟨S, B, hS, rfl, rfl⟩)

variable (hdetect : Pattern.detect mode r.thresholds r.chunks run = .ok (after, patterns))
variable (hdetect' : Pattern.detect mode r'.thresholds r'.chunks run' = .ok (after', patterns'))
variable (hafter : after.cancelled = false) (hafter' : after'.cancelled = false)
include hdetect hdetect' hafter hafter'

theorem mem_detect_iff {p' : Pattern} :
    p' ∈ patterns' ↔ p' ∈ patterns.map (Pattern.spread bodies supports) := by
  rw [Reference.mem_detect_iff hr' hdetect' hafter', h.isPattern_iff hdescribes hdescribes',
    List.mem_map]
  refine exists_congr fun p => ?_
  rw [Reference.mem_detect_iff hr hdetect hafter, eq_comm]

/-- What copying leaves alone is found of the copies as of the originals. -/
theorem mem_map_detect_iff {β : Type} {trait : Pattern → β}
    (htrait : ∀ p ∈ patterns, trait (p.spread bodies supports) = trait p) {b : β} :
    b ∈ patterns'.map trait ↔ b ∈ patterns.map trait := by
  simp only [List.mem_map (l := patterns'),
    h.mem_detect_iff hdescribes hdescribes' hr hr' hdetect hdetect' hafter hafter', List.mem_map]
  constructor
  · intro hb
    rcases hb with ⟨_, ⟨p, hp, rfl⟩, rfl⟩
    exact ⟨p, hp, (htrait p hp).symm⟩
  · intro hb
    rcases hb with ⟨p, hp, rfl⟩
    exact ⟨_, ⟨p, hp, rfl⟩, htrait p hp⟩

/-- Where bodies stand for themselves, the copies come in the order of the originals. -/
theorem detect_eq_map (hbodies : ∀ p ∈ patterns, bodies.spread p.properties = p.properties) :
    patterns' = patterns.map (Pattern.spread bodies supports) := by
  refine eq_of_pairwise_of_mem_iff (fun _ _ => Precedes.asymm) (pairwise_detect hr' hdetect') ?_
    fun _ => h.mem_detect_iff hdescribes hdescribes' hr hr' hdetect hdetect' hafter hafter'
  refine List.pairwise_map.2 ((pairwise_detect hr hdetect).imp_of_mem ?_)
  intro p q hp hq hpq
  unfold Precedes at hpq ⊢
  simpa only [Pattern.spread, hbodies p hp, hbodies q hq] using hpq

end Patterns
end IsCopy
end Reference
end RoleMining
