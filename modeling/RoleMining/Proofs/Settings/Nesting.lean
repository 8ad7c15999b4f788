import RoleMining.Proofs.Settings.Layers

/-!
# How deep settings nest

Settings are copied when they are shown, and a copy of nested values takes room on the stack. What
overrides set stands inside them, and the defaults do not nest, so settings nest no deeper than the
overrides that they come from: where there is room for a copy of these, the settings are copied.
-/
namespace RoleMining

variable {room : ℕ}

/-! ### Values and layers -/

namespace Json

theorem depthOfItems_le_iff {items : List Json} :
    depthOfItems items ≤ room ↔ ∀ item ∈ items, item.depth ≤ room := by
  induction items with
  | nil => simp [depthOfItems]
  | cons item items ih => rw [depthOfItems, Nat.max_le, List.forall_mem_cons, ih]

theorem depthOfFields_le_iff {fields : Fields} :
    depthOfFields fields ≤ room ↔ ∀ field ∈ fields, field.2.depth ≤ room := by
  induction fields with
  | nil => simp [depthOfFields]
  | cons field fields ih =>
    obtain ⟨name, value⟩ := field
    rw [depthOfFields, Nat.max_le, List.forall_mem_cons, ih]

theorem depth_le_of_mem_list {items : List Json} (h : (Json.list items).depth ≤ room) :
    ∀ item ∈ items, item.depth ≤ room :=
  depthOfItems_le_iff.1 (Nat.le_of_succ_le h)

theorem depth_le_of_mem_object {fields : Fields} (h : (Json.object fields).depth ≤ room) :
    ∀ field ∈ fields, field.2.depth ≤ room :=
  depthOfFields_le_iff.1 (Nat.le_of_succ_le h)

end Json

namespace Layer

variable {layer : Layer}

/-- There is room for a copy of every value of a layer. -/
def NestsWithin (room : ℕ) (layer : Layer) : Prop :=
  ∀ name value, layer.find? name = some value → value.depth ≤ room

theorem nestsWithin_empty : NestsWithin room .empty := fun _ _ h => nomatch h

theorem NestsWithin.record (h : layer.NestsWithin room) {value : Json} (hvalue : value.depth ≤ room)
    (name : String) : NestsWithin room (layer.record name value) := by
  intro other found hfound
  rw [Ledger.find?_record] at hfound
  split_ifs at hfound with hsame
  · rwa [← Option.some_inj.1 hfound]
  · exact h other found hfound

theorem NestsWithin.update {top : Layer} (h : layer.NestsWithin room)
    (htop : top.NestsWithin room) : NestsWithin room (layer.update top) := by
  intro name value hvalue
  rw [Ledger.find?_update, Option.or_eq_some_iff] at hvalue
  rcases hvalue with hvalue | ⟨-, hvalue⟩
  · exact htop name value hvalue
  · exact h name value hvalue

theorem nestsWithin_ofList {fields : Fields} (h : ∀ field ∈ fields, field.2.depth ≤ room) :
    NestsWithin room (.ofList fields) := by
  intro name value hvalue
  rw [Ledger.find?_ofList] at hvalue
  exact h (name, value) (List.mem_reverse.1 (mem_of_valueAt hvalue))

/-- What is found in a layer, or stands for what is not, can be copied. -/
theorem NestsWithin.depth_getD (h : layer.NestsWithin room) {default : Json}
    (hdefault : default.depth = 0) (name : String) :
    ((layer.find? name).getD default).depth ≤ room := by
  cases hfound : layer.find? name with
  | none => exact hdefault ▸ Nat.zero_le room
  | some value => exact h name value hfound

theorem depth_of_pairParts {pair : Json} {parts : List Json} (hpair : pair.depth ≤ room)
    (h : pairParts pair = .ok parts) : ∀ part ∈ parts, part.depth ≤ room := by
  cases pair with
  | list items =>
    rw [← Except.ok.inj h]
    exact Json.depth_le_of_mem_list hpair
  | str s =>
    rw [← Except.ok.inj h, List.forall_mem_map]
    exact fun _ _ => Nat.zero_le room
  | object fields =>
    rw [← Except.ok.inj h, List.forall_mem_map]
    exact fun _ _ => Nat.zero_le room
  | _ => cases h

theorem NestsWithin.ofPairs {read : Layer} {index : ℕ} {pairs : List Json}
    (hlayer : layer.NestsWithin room) (hpairs : ∀ pair ∈ pairs, pair.depth ≤ room)
    (h : ofPairs layer index pairs = .ok read) : read.NestsWithin room := by
  induction pairs generalizing layer index with
  | nil =>
    rw [← Except.ok.inj h]
    exact hlayer
  | cons pair pairs ih =>
    obtain ⟨hpair, hrest⟩ := List.forall_mem_cons.1 hpairs
    rw [Layer.ofPairs] at h
    obtain ⟨parts, hparts, h⟩ := bind_eq_ok_iff.1 h
    have hdepth := depth_of_pairParts hpair hparts
    split at h
    next key value =>
      split at h
      next name _ => exact ih (hlayer.record (hdepth value (by simp)) name) hrest h
      next => cases h
    next => cases h

theorem nestsWithin_of_ofJson {value : Json} (hvalue : value.depth ≤ room)
    (h : ofJson value = .ok layer) : layer.NestsWithin room := by
  unfold ofJson at h
  split at h
  next =>
    rw [← Except.ok.inj h]
    exact nestsWithin_empty
  next =>
    split at h
    next =>
      rw [← Except.ok.inj h]
      exact nestsWithin_ofList (Json.depth_le_of_mem_object hvalue)
    next => exact nestsWithin_empty.ofPairs (Json.depth_le_of_mem_list hvalue) h
    next =>
      refine nestsWithin_empty.ofPairs ?_ h
      rw [List.forall_mem_map]
      exact fun _ _ => Nat.zero_le room
    next => cases h

end Layer

/-! ### Sheets -/

namespace Sheet

/-- There is room for a copy of both sections. -/
structure NestsWithin (room : ℕ) (sheet : Sheet) : Prop where
  session : sheet.session.NestsWithin room
  detection : sheet.detection.NestsWithin room

theorem nestsWithin_withFlat {flat placed : Layer} (hflat : flat.NestsWithin room)
    (hplaced : placed.NestsWithin room) (names : List String) :
    (withFlat names flat placed).NestsWithin room := by
  intro name value hvalue
  rw [find?_withFlat, Option.or_eq_some_iff] at hvalue
  rcases hvalue with hvalue | ⟨-, hvalue⟩
  · exact hplaced name value hvalue
  · split_ifs at hvalue
    exact hflat name value hvalue

theorem nestsWithin_of_ofJson {value : Json} {sheet : Sheet} (hvalue : value.depth ≤ room)
    (h : ofJson value = .ok sheet) : sheet.NestsWithin room := by
  obtain ⟨layer, hlayer, h⟩ := bind_eq_ok_iff.1 h
  obtain ⟨session, hsession, h⟩ := bind_eq_ok_iff.1 h
  obtain ⟨detection, hdetection, h⟩ := bind_eq_ok_iff.1 h
  rw [← Except.ok.inj h]
  have hflat := Layer.nestsWithin_of_ofJson hvalue hlayer
  exact ⟨
    nestsWithin_withFlat hflat (Layer.nestsWithin_of_ofJson (hflat.depth_getD rfl _) hsession) _,
    nestsWithin_withFlat hflat (Layer.nestsWithin_of_ofJson (hflat.depth_getD rfl _) hdetection) _⟩

theorem NestsWithin.merge {base top : Sheet} (hbase : base.NestsWithin room)
    (htop : top.NestsWithin room) : (base.merge top).NestsWithin room :=
  ⟨hbase.session.update htop.session, hbase.detection.update htop.detection⟩

end Sheet

/-! ### Settings -/

namespace Settings

variable {s : Settings} {overrides : Json}

/-- There is room for a copy of every field of the two sections. -/
def NestsWithin (room : ℕ) (s : Settings) : Prop :=
  ∀ field ∈ s.session.fields ++ s.detection.fields, field.2.depth ≤ room

theorem copied_of_nestsWithin (h : s.NestsWithin room) : s.copied room = .ok s.toJson :=
  if_pos (List.all_eq_true.2 fun field hfield => decide_eq_true (h field hfield))

theorem copied_eq_error (h : ¬ s.NestsWithin room) : s.copied room = .error .nestedTooDeep :=
  if_neg fun hall => h fun field hfield => of_decide_eq_true (List.all_eq_true.1 hall field hfield)

theorem nestsWithin_ofSheet {sheet : Sheet} (h : sheet.NestsWithin room) :
    (ofSheet sheet).NestsWithin room := by
  have hsession (name : String) {default : Json} (hdefault : default.depth = 0) :
      ((valueAt name sheet.session.entries).getD default).depth ≤ room :=
    h.session.depth_getD hdefault name
  have hdetection (name : String) {default : Json} (hdefault : default.depth = 0) :
      ((valueAt name sheet.detection.entries).getD default).depth ≤ room :=
    h.detection.depth_getD hdefault name
  simp only [NestsWithin, ofSheet, Session.ofFields, Detection.ofFields, Session.fields,
    Detection.fields, List.forall_mem_append, List.forall_mem_cons, List.not_mem_nil,
    false_imp_iff, implies_true, and_true]
  exact ⟨⟨hsession _ rfl, hsession _ rfl, hsession _ rfl, hsession _ rfl, hsession _ rfl,
    hsession _ rfl, hsession _ rfl, hsession _ rfl, hsession _ rfl, hsession _ rfl,
    hsession _ rfl⟩, hdetection _ rfl, hdetection _ rfl, hdetection _ rfl, hdetection _ rfl⟩

/-- No default nests. -/
theorem depth_defaults :
    ∀ field ∈ defaults.session.fields ++ defaults.detection.fields, field.2.depth = 0 := by
  decide

theorem nestsWithin_defaults : defaults.NestsWithin room := fun field hfield =>
  depth_defaults field hfield ▸ Nat.zero_le room

theorem nestsWithin_sheet_defaults : defaults.sheet.NestsWithin room where
  session := Layer.nestsWithin_ofList fun field hfield =>
    nestsWithin_defaults field (List.mem_append_left _ hfield)
  detection := Layer.nestsWithin_ofList fun field hfield =>
    nestsWithin_defaults field (List.mem_append_right _ hfield)

theorem nestsWithin_of_overridden {sheet : Sheet} (hoverrides : overrides.depth ≤ room)
    (h : overridden overrides = .ok sheet) : (ofSheet sheet).NestsWithin room := by
  obtain ⟨top, htop, h⟩ := bind_eq_ok_iff.1 h
  rw [← Except.ok.inj h]
  exact nestsWithin_ofSheet
    (nestsWithin_sheet_defaults.merge (Sheet.nestsWithin_of_ofJson hoverrides htop))

/-- Settings that overrides resolve to nest no deeper than these. -/
theorem nestsWithin_of_resolve (hoverrides : overrides.depth ≤ room)
    (h : resolve overrides = .ok s) : s.NestsWithin room := by
  unfold resolve at h
  split at h
  next =>
    obtain ⟨_, -, he⟩ := bind_eq_ok_iff.1 h
    rw [← Except.ok.inj he]
    exact nestsWithin_defaults
  next =>
    obtain ⟨sheet, hsheet, h⟩ := bind_eq_ok_iff.1 h
    obtain ⟨_, -, he⟩ := bind_eq_ok_iff.1 h
    rw [← Except.ok.inj he]
    exact nestsWithin_of_overridden hoverrides hsheet
  next => cases h

end Settings
end RoleMining
