import RoleMining.Proofs.Binary64.Range
import RoleMining.Proofs.Detection.Patterns

/-!
# Searches that support less

A search can support a part of what another one does, with the same weights. If the part has with
every support of a body the better ones too, then a body has its best support in the part or none at
all. So the patterns of the narrower search are those of the wider one that lie in the part, and
they come in the same order.
-/
namespace RoleMining

namespace Reference

/-- A reference supports what another one does and a test keeps, and weighs it alike. -/
structure Narrows (r r' : Reference) (keep : IdSet → IdSet → Bool) : Prop where
  supports_iff : ∀ {S B}, r'.Supports S B ↔ r.Supports S B ∧ keep S B = true
  /-- What is kept of a body is kept with its better supports. -/
  keep_of_outranks : ∀ {S T B}, Pattern.Outranks r.supportWeight T S → keep S B = true →
    keep T B = true
  weighted_support : ∀ {S B}, r.Supports S B →
    S.weighted r'.supportWeight = S.weighted r.supportWeight
  weighted_body : ∀ {S B}, r.Supports S B → B.weighted r'.bodyWeight = B.weighted r.bodyWeight

namespace Narrows

/-- A part from which nothing is missing is narrowed to the whole. -/
theorem symm {r r' : Reference} (h : r.Narrows r' fun _ _ => true) :
    r'.Narrows r fun _ _ => true where
  supports_iff := (and_iff_left rfl).symm.trans
    (h.supports_iff.symm.trans (and_iff_left rfl).symm)
  keep_of_outranks _ _ := rfl
  weighted_support hS := (h.weighted_support (h.supports_iff.1 hS).1).symm
  weighted_body hS := (h.weighted_body (h.supports_iff.1 hS).1).symm

variable {r r' : Reference} {keep : IdSet → IdSet → Bool} {S T B : IdSet} {mode mode' : Mode}
variable (h : r.Narrows r' keep)
include h

theorem outranks_iff (hS : r.Supports S B) (hT : r.Supports T B) :
    Pattern.Outranks r'.supportWeight S T ↔ Pattern.Outranks r.supportWeight S T :=
  Pattern.Outranks.congr (h.weighted_support hS) (h.weighted_support hT)

variable (hr : Chunk.Consistent r.bodyWeight r.supportWeight r.chunks)
include hr

/-- The best support of a body is kept or no support is. -/
theorem isFinding_iff : r'.IsFinding S B ↔ r.IsFinding S B ∧ keep S B = true := by
  constructor
  · intro hS
    obtain ⟨hwide, hkeep⟩ := h.supports_iff.1 hS.toSupports
    obtain ⟨T, hT⟩ := exists_isFinding hr hwide
    have hTS := hT.best S hwide
    have hST := hS.best T (h.supports_iff.2 ⟨hT.toSupports, h.keep_of_outranks hTS hkeep⟩)
    obtain rfl := hTS.antisymm ((h.outranks_iff hwide hT.toSupports).1 hST)
    exact ⟨hT, hkeep⟩
  · intro hboth
    obtain ⟨hS, hkeep⟩ := hboth
    refine ⟨h.supports_iff.2 ⟨hS.toSupports, hkeep⟩, fun T hT => ?_⟩
    have hwide := (h.supports_iff.1 hT).1
    exact (h.outranks_iff hS.toSupports hwide).2 (hS.best T hwide)

theorem isPattern_iff (mode : Mode) {p' : Pattern} : r'.IsPattern mode' p' ↔
    ∃ p, (r.IsPattern mode p ∧ keep p.members p.properties = true) ∧
      { p with mode := mode' } = p' := by
  constructor
  · intro hp'
    obtain ⟨hfinding, hkeep⟩ := (h.isFinding_iff hr).1 hp'.finding
    have hsupport := hp'.support_eq
    have hscore := hp'.score_eq
    rw [h.weighted_support hfinding.toSupports] at hsupport hscore
    rw [h.weighted_body hfinding.toSupports] at hscore
    refine ⟨{ p' with mode }, ⟨⟨hfinding, hsupport, hscore, rfl⟩, hkeep⟩, ?_⟩
    rw [← hp'.mode_eq]
  · intro hp
    obtain ⟨p, ⟨hp, hkeep⟩, rfl⟩ := hp
    have hsupport := hp.support_eq
    have hscore := hp.score_eq
    rw [← h.weighted_support hp.finding.toSupports] at hsupport hscore
    rw [← h.weighted_body hp.finding.toSupports] at hscore
    exact ⟨(h.isFinding_iff hr).2 ⟨hp.finding, hkeep⟩, hsupport, hscore, rfl⟩

section Detect

variable {α β : Type} {run after : Run α} {patterns : List Pattern}
variable (hr' : Chunk.Consistent r'.bodyWeight r'.supportWeight r'.chunks)
variable (hdetect : Pattern.detect mode r.thresholds r.chunks run = .ok (after, patterns))
variable (hafter : after.cancelled = false)
include hr' hdetect hafter

/-- The score of a support is in range with that of the best support of its body. -/
theorem exists_detect (mode' : Mode) (run' : Run β) : ∃ after' patterns',
    Pattern.detect mode' r'.thresholds r'.chunks run' = .ok (after', patterns') := by
  refine Reference.exists_detect hr' mode' run' fun S B hS => ?_
  have hwide := (h.supports_iff.1 hS).1
  obtain ⟨p, hp, rfl⟩ := exists_mem_detect hr hdetect hafter hwide
  have hpattern := (Reference.mem_detect_iff hr hdetect hafter).1 hp
  have hbody : 0 ≤ p.properties.weighted r.bodyWeight :=
    IdSet.weighted_nonneg fun x hx =>
      le_trans (by decide) (hr.one_le_bodyWeight x (hwide.body.subset_members x hx))
  have hsupport : 0 ≤ S.weighted r.supportWeight :=
    IdSet.weighted_nonneg fun x hx =>
      le_trans (by decide) (hr.one_le_supportWeight x (hwide.candidate.subset_population x hx))
  rw [h.weighted_body hwide, h.weighted_support hwide]
  refine Binary64.isSome_ofInt?_of_le (mul_nonneg hbody hsupport)
    (mul_le_mul_of_nonneg_left (hpattern.finding.best S hwide).weighted_le hbody) ?_
  rw [hpattern.score_eq]
  rfl

variable {run' after' : Run β} {patterns' : List Pattern}

theorem detect_eq_filter
    (hdetect' : Pattern.detect mode' r'.thresholds r'.chunks run' = .ok (after', patterns'))
    (hafter' : after'.cancelled = false) : patterns' =
      (patterns.filter fun p => keep p.members p.properties).map fun p =>
        { p with mode := mode' } := by
  refine eq_of_pairwise_of_mem_iff (fun _ _ => Precedes.asymm) (pairwise_detect hr' hdetect') ?_
    fun p' => ?_
  · exact List.pairwise_map.2 ((pairwise_detect hr hdetect).sublist List.filter_sublist)
  · rw [Reference.mem_detect_iff hr' hdetect' hafter', h.isPattern_iff hr mode,
      List.mem_map]
    simp only [List.mem_filter, Reference.mem_detect_iff hr hdetect hafter]

end Detect

end Narrows
end Reference
end RoleMining
