import RoleMining.Proofs.Detection.Copies
import RoleMining.Proofs.Detection.Narrowing
import RoleMining.Proofs.Extraction
import RoleMining.Proofs.Number

/-!
# Size thresholds only sift

The thresholds are asked for in the middle of a search: of the supports before they are intersected,
of every intersection, of every body. All the same, higher ones take from the answer what does not
reach them and change nothing else. A search for shared sets can be sifted by size in the same way.
-/
namespace RoleMining

/-- Of two thresholds with one band the second are the higher ones. -/
structure Thresholds.Raises (t t' : Thresholds) : Prop where
  low : t.band.low.same t'.band.low = true
  high : t.band.high.same t'.band.high = true
  support : t.minSupport.atMost t'.minSupport = true
  intersection : t.minIntersection.atMost t'.minIntersection = true

section Reaches

variable {weight : String → ℤ} {size size' : Number} {s t : IdSet}

/-- What reaches a threshold reaches every lower one. -/
theorem reaches_of_atMost (hsize : size.atMost size' = true) (h : reaches weight size' s = true) :
    reaches weight size s = true := by
  rw [reaches_iff] at h ⊢
  by_contra hbelow
  rw [Bool.not_eq_false] at hbelow
  rw [Number.below_of_below_of_atMost hbelow hsize] at h
  cases h

/-- What is at least as heavy reaches the same thresholds. -/
theorem reaches_of_le (hle : s.weighted weight ≤ t.weighted weight)
    (h : reaches weight size s = true) : reaches weight size t = true := by
  rw [reaches_iff] at h ⊢
  by_contra hbelow
  rw [Bool.not_eq_false] at hbelow
  rw [Number.below_of_le hle hbelow] at h
  cases h

end Reaches

/-! ### Detection -/

namespace Reference

/-- The same chunks, searched with other thresholds. -/
def withThresholds (r : Reference) (thresholds : Thresholds) : Reference := { r with thresholds }

/-- Whether a support and its body reach some thresholds. -/
def passes (r : Reference) (thresholds : Thresholds) (S B : IdSet) : Bool :=
  reaches r.supportWeight thresholds.minSupport S &&
    reaches r.bodyWeight thresholds.minIntersection B

variable {α : Type} {r : Reference} {thresholds : Thresholds} {mode : Mode}

section Raises

variable (h : r.thresholds.Raises thresholds)
include h

/-- The band is the same, and so are the chunks in it. -/
theorem survivors_withThresholds : (r.withThresholds thresholds).survivors = r.survivors := by
  refine List.filter_congr fun c _ => ?_
  rw [Number.atMost_congr_left h.low, Number.atMost_congr_right h.high]
  rfl

theorem supports_withThresholds_iff {S B : IdSet} : (r.withThresholds thresholds).Supports S B ↔
    r.Supports S B ∧ r.passes thresholds S B = true := by
  have hsurvivors := survivors_withThresholds h
  rw [passes, Bool.and_eq_true]
  constructor
  · intro hS
    obtain ⟨hheavy, hmeet⟩ := hS.candidate
    have hbody := hS.body
    unfold supportSets at hmeet
    unfold IsBody at hbody
    rw [hsurvivors] at hmeet hbody
    exact ⟨⟨⟨reaches_of_atMost h.support hheavy, hmeet⟩, hbody,
      reaches_of_atMost h.intersection hS.large⟩, hheavy, hS.large⟩
  · intro hboth
    obtain ⟨hS, hheavy, hlarge⟩ := hboth
    refine ⟨⟨hheavy, ?_⟩, ?_, hlarge⟩
    · unfold supportSets
      rw [hsurvivors]
      exact hS.candidate.2
    · unfold IsBody
      rw [hsurvivors]
      exact hS.body

/-- A better support is at least as heavy, so it reaches the threshold with the other. -/
theorem narrows_withThresholds :
    r.Narrows (r.withThresholds thresholds) (r.passes thresholds) where
  supports_iff := supports_withThresholds_iff h
  keep_of_outranks {S T B} hTS hpasses := by
    rw [passes, Bool.and_eq_true] at hpasses ⊢
    exact ⟨reaches_of_le hTS.weighted_le hpasses.1, hpasses.2⟩
  weighted_support _ := rfl
  weighted_body _ := rfl

variable (hr : Chunk.Consistent r.bodyWeight r.supportWeight r.chunks)
variable {run after : Run α} {patterns : List Pattern}
variable (hdetect : Pattern.detect mode r.thresholds r.chunks run = .ok (after, patterns))
variable (hafter : after.cancelled = false)
include hr hdetect hafter

theorem detect_withThresholds {run' after' : Run α} {patterns' : List Pattern}
    (hdetect' : Pattern.detect mode thresholds r.chunks run' = .ok (after', patterns'))
    (hafter' : after'.cancelled = false) : patterns' = patterns.filter fun p =>
      !(Number.int p.support).below thresholds.minSupport &&
        !(Number.int (p.properties.weighted r.bodyWeight)).below thresholds.minIntersection := by
  rw [(narrows_withThresholds h).detect_eq_filter hr hr hdetect hafter hdetect' hafter']
  have hpattern : ∀ p ∈ patterns, r.IsPattern mode p :=
    fun p => (mem_detect_iff hr hdetect hafter).1
  rw [List.map_congr_left (g := id), List.map_id]
  · refine List.filter_congr fun p hp => ?_
    rw [(hpattern p hp).support_eq]
    rfl
  · intro p hp
    rw [← (hpattern p (List.mem_of_mem_filter hp)).mode_eq, id]

end Raises
end Reference

/-! ### Shared sets -/

namespace Intersection

variable {α : Type} {limits : Limits} {size : Number} {frequencies : Frequencies}
variable {members : List Record} {run after run' after' : Run α}
variable {result result' : List Intersection}

/-- Whether two members give a set already does not depend on the threshold, nor do its numbers. -/
theorem extract_withMinSize (hsize : limits.minSize.atMost size = true)
    (h : extract limits frequencies members run = (after, result))
    (hafter : after.cancelled = false)
    (h' : extract { limits with minSize := size } frequencies members run' = (after', result'))
    (hafter' : after'.cancelled = false) :
    result' = result.filter fun i => !(Number.int i.properties.size).below size := by
  refine eq_of_pairwise_of_mem_iff (fun _ _ => Precedes.asymm) (pairwise_extract h')
    ((pairwise_extract h).sublist List.filter_sublist) fun i => ?_
  have hreaches : (!(Number.int i.properties.size).below size) =
      reaches (fun _ => 1) size i.properties := by
    rw [reaches, IdSet.weighted_one]
  rw [List.mem_filter, hreaches, mem_extract_iff h hafter, mem_extract_iff h' hafter']
  constructor
  · intro hi
    obtain ⟨⟨hlarge, hmeet⟩, hrest⟩ := hi
    exact ⟨⟨⟨reaches_of_atMost hsize hlarge, hmeet⟩, hrest⟩, hlarge⟩
  · intro hi
    obtain ⟨⟨⟨-, hmeet⟩, hrest⟩, hlarge⟩ := hi
    exact ⟨⟨hlarge, hmeet⟩, hrest⟩

end Intersection

namespace Pattern

/-- Size thresholds do nothing but sift. Take options that nothing is wrong with, of which the
second have the same band and thresholds that are no lower, and chunks that agree on weights. A
detection with the first returns whenever the scores are in range, and fails on no other ground. If
it returns and is not cancelled, every detection with the second returns, and unless cancelled it
lists the patterns with enough support and a large enough body, in the same order. Likewise an
extraction with a size that is no lower lists the shared sets of that size, with the same
provenance and numbers. -/
theorem size_thresholds_only_sift {α : Type} {options options' : Detection}
    (hoptions : options.complaints = .ok []) (hoptions' : options'.complaints = .ok []) :
    (∃ thresholds thresholds',
      options.check = .ok thresholds ∧ options'.check = .ok thresholds' ∧
      (thresholds.Raises thresholds' → ∀ (chunks : List Chunk) (bodyWeight supportWeight),
        Chunk.Consistent bodyWeight supportWeight chunks → ∀ (mode : Mode) (run run' : Run α),
        let r : Reference := { chunks, bodyWeight, supportWeight, thresholds }
        ((∀ S B, r.Supports S B →
            (Binary64.ofInt? (B.weighted bodyWeight * S.weighted supportWeight)).isSome = true) →
          ∃ after patterns, detect mode thresholds chunks run = .ok (after, patterns)) ∧
        (∀ failure, detect mode thresholds chunks run = .error failure →
          failure = .numberTooLarge) ∧
        ∀ after patterns, detect mode thresholds chunks run = .ok (after, patterns) →
          after.cancelled = false →
          ∃ after' patterns', detect mode thresholds' chunks run' = .ok (after', patterns') ∧
            (after'.cancelled = false → patterns' = patterns.filter fun p =>
              !(Number.int p.support).below thresholds'.minSupport &&
              !(Number.int (p.properties.weighted bodyWeight)).below
                thresholds'.minIntersection))) ∧
    ∀ (limits : Intersection.Limits) (size : Number) (frequencies : Frequencies)
      (members : List Record) (run run' after after' : Run α) (result result'),
      limits.minSize.atMost size = true →
      Intersection.extract limits frequencies members run = (after, result) →
      after.cancelled = false →
      Intersection.extract { limits with minSize := size } frequencies members run' =
        (after', result') →
      after'.cancelled = false →
      result' = result.filter fun i => !(Number.int i.properties.size).below size := by
  obtain ⟨thresholds, hcheck, -⟩ := Detection.exists_check hoptions
  obtain ⟨thresholds', hcheck', -⟩ := Detection.exists_check hoptions'
  refine ⟨⟨thresholds, thresholds', hcheck, hcheck', ?_⟩, ?_⟩
  · intro hraises chunks bodyWeight supportWeight hchunks mode run run' r
    have hr : Chunk.Consistent r.bodyWeight r.supportWeight r.chunks := hchunks
    have hnarrows : r.Narrows (r.withThresholds thresholds') (r.passes thresholds') :=
      Reference.narrows_withThresholds hraises
    refine ⟨Reference.exists_detect hr mode run, ?_, ?_⟩
    · intro failure h
      exact (Reference.detect_eq_error hr h).1
    · intro after patterns h hafter
      obtain ⟨after', patterns', h'⟩ := hnarrows.exists_detect hr hr h hafter mode run'
      exact ⟨after', patterns', h',
        Reference.detect_withThresholds (r := r) hraises hr h hafter h'⟩
  · intro limits size frequencies members run run' after after' result result' hsize h hafter h'
      hafter'
    exact Intersection.extract_withMinSize hsize h hafter h' hafter'

/-- Options that ask for three users. -/
def threeUsers : Detection := { minSupport := .int 3 }

theorem check_threeUsers : threeUsers.check = .ok { Detection.standard with minSupport := 3 } := by
  have hvalid : threeUsers.complaints = .ok [] := by decide +kernel
  unfold Detection.check
  rw [hvalid]
  rfl

/-- Two roles that two users hold. -/
def rolesOfPair : List Chunk :=
  [{ kind := .roles, members := ["dev", "ops"], properties := ["ann", "bob"], weight := 2 }]

theorem pair_is_sifted_out :
    ({} : Detection).complaints = .ok [] ∧ threeUsers.complaints = .ok [] ∧
    Detection.standard.Raises { Detection.standard with minSupport := 3 } ∧
    Chunk.Consistent (fun _ => 1) (fun _ => 1) rolesOfPair ∧
    (∃ (after after' : Run Unit) (patterns patterns' : List Pattern),
      detect .user Detection.standard rolesOfPair Run.unwatched = .ok (after, patterns) ∧
      detect .user { Detection.standard with minSupport := 3 } rolesOfPair Run.unwatched =
        .ok (after', patterns') ∧
      after.cancelled = false ∧ after'.cancelled = false ∧
      patterns.map (·.support) = [2] ∧ patterns' = []) ∧
    ∃ (after after' : Run Unit) (result result' : List Intersection),
      Intersection.extract { minSize := 1, band := { low := 0, high := 1 } }
        (.ofList [("a", 1)]) Intersection.sharing Run.unwatched = (after, result) ∧
      Intersection.extract { minSize := 2, band := { low := 0, high := 1 } }
        (.ofList [("a", 1)]) Intersection.sharing Run.unwatched = (after', result') ∧
      after.cancelled = false ∧ after'.cancelled = false ∧
      result.map (·.properties.size) = [1] ∧
      result' = result.filter fun i => !(Number.int i.properties.size).below 2 := by
  have hvalid : ({} : Detection).complaints = .ok [] := by decide +kernel
  have hvalid' : threeUsers.complaints = .ok [] := by decide +kernel
  have hraises : Detection.standard.Raises { Detection.standard with minSupport := 3 } := by
    constructor <;> decide +kernel
  have hchunks : Chunk.Consistent (fun _ => 1) (fun _ => 1) rolesOfPair := by
    constructor <;> (unfold Chunk.Measures; decide)
  obtain ⟨⟨thresholds, thresholds', hcheck, hcheck', hdetect⟩, hextract⟩ :=
    size_thresholds_only_sift (α := Unit) hvalid hvalid'
  cases Detection.check_default.symm.trans hcheck
  cases check_threeUsers.symm.trans hcheck'
  obtain ⟨-, -, hsifts⟩ :=
    hdetect hraises rolesOfPair _ _ hchunks .user Run.unwatched Run.unwatched
  refine ⟨hvalid, hvalid', hraises, hchunks, ?_, ?_⟩
  · have hfound : supportsFound (detect .user Detection.standard rolesOfPair Run.unwatched) =
        some (false, [2]) := by decide +kernel
    obtain ⟨after, patterns, h, hafter, hsupports⟩ := exists_of_supportsFound hfound
    obtain ⟨after', patterns', h', hfilter⟩ := hsifts after patterns h hafter
    let r : Reference :=
      ⟨rolesOfPair, fun _ => 1, fun _ => 1, { Detection.standard with minSupport := 3 }⟩
    have hafter' := Reference.cancelled_detect (r := r) hchunks Run.unhindered_unwatched h'
    refine ⟨after, after', patterns, patterns', h, h', hafter, hafter', hsupports, ?_⟩
    rw [hfilter hafter', List.filter_eq_nil_iff]
    intro p hp
    have hsupport := List.mem_map_of_mem (f := (·.support)) hp
    rw [hsupports, List.mem_singleton] at hsupport
    have hlow : (Number.int 2).below 3 = true := by decide
    simp [hsupport, hlow]
  · have hrunning (limits frequencies) : (Intersection.extract limits frequencies
        Intersection.sharing (Run.unwatched : Run Unit)).1.cancelled = false :=
      (unhindered_collectIntersections _ _ Run.unhindered_unwatched).running
    exact ⟨_, _, _, _, Prod.mk.eta.symm, Prod.mk.eta.symm, hrunning _ _, hrunning _ _,
      by decide +kernel, hextract _ 2 _ _ _ _ _ _ _ _ (by decide) Prod.mk.eta.symm (hrunning _ _)
        Prod.mk.eta.symm (hrunning _ _)⟩

/-- One role of a user whose weight is beyond the range of doubles. -/
def hugeHolder : Reference where
  chunks := [{
    kind := .roles
    members := ["dev"]
    properties := ["ann"]
    weight := 1
    propertyWeights := [10 ^ 309] }]
  bodyWeight _ := 1
  supportWeight _ := 10 ^ 309
  thresholds := { Detection.standard with minIntersection := 1 }

theorem lower_threshold_gives_no_answer :
    ({ minIntersection := .int 1 } : Detection).complaints = .ok [] ∧
    ({} : Detection).complaints = .ok [] ∧
    ({ minIntersection := .int 1 } : Detection).check = .ok hugeHolder.thresholds ∧
    ({} : Detection).check = .ok Detection.standard ∧
    hugeHolder.thresholds.Raises Detection.standard ∧
    Chunk.Consistent hugeHolder.bodyWeight hugeHolder.supportWeight hugeHolder.chunks ∧
    detect .user hugeHolder.thresholds hugeHolder.chunks (Run.unwatched : Run Unit) =
      .error .numberTooLarge ∧
    ∃ after : Run Unit, detect .user Detection.standard hugeHolder.chunks Run.unwatched =
      .ok (after, []) ∧ after.cancelled = false := by
  have hvalid : ({ minIntersection := .int 1 } : Detection).complaints = .ok [] := by
    decide +kernel
  have hchunks : Chunk.Consistent hugeHolder.bodyWeight hugeHolder.supportWeight
      hugeHolder.chunks := by
    constructor <;> (unfold Chunk.Measures; decide +kernel)
  refine ⟨hvalid, by decide +kernel, ?_, Detection.check_default, ?_, hchunks, ?_, ?_⟩
  · unfold Detection.check
    rw [hvalid]
    rfl
  · constructor <;> decide +kernel
  · have hnone : (detect .user hugeHolder.thresholds hugeHolder.chunks
        (Run.unwatched : Run Unit)).toOption.isNone = true := by decide +kernel
    cases h : detect .user hugeHolder.thresholds hugeHolder.chunks (Run.unwatched : Run Unit) with
    | ok result =>
      rw [h] at hnone
      cases hnone
    | error failure => rw [(Reference.detect_eq_error hchunks h).1]
  · have hfound : supportsFound (detect .user Detection.standard hugeHolder.chunks
        Run.unwatched) = some (false, []) := by decide +kernel
    obtain ⟨after, patterns, h, hafter, hsupports⟩ := exists_of_supportsFound hfound
    rw [List.map_eq_nil_iff] at hsupports
    exact ⟨after, hsupports ▸ h, hafter⟩

end Pattern
end RoleMining
