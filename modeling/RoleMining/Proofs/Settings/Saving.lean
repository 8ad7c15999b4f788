import RoleMining.Proofs.Json.Plain
import RoleMining.Proofs.Json.RoundTrip
import RoleMining.Proofs.Settings.Acceptance
import RoleMining.Proofs.Settings.Nesting

/-!
# Settings that are saved

Settings written as an object give every field in its own section, so nothing is left to a default,
neither when the object is read nor when it is laid over the defaults. Together with the reader's
inverting the writer, saved settings are loaded as they were, and resolved settings resolve to
themselves. There is no text for an integer that is too long, and no copy of what nests too deep.
-/
namespace RoleMining

namespace Settings

variable {s : Settings}

theorem entries_sheet (s : Settings) : s.sheet.session.entries = s.session.fields ∧
    s.sheet.detection.entries = s.detection.fields ∧ s.sheet.other.entries = s.runtime.fields :=
  ⟨Ledger.entries_ofList (by decide : Session.names.Nodup),
    Ledger.entries_ofList (by decide : Detection.names.Nodup),
    Ledger.entries_ofList (by decide : Runtime.names.Nodup)⟩

/-- The sheet of the settings has their fields and nothing else. -/
theorem ofSheet_sheet (s : Settings) : ofSheet s.sheet = s := by
  obtain ⟨hsession, hdetection, hruntime⟩ := entries_sheet s
  rw [ofSheet, hsession, hdetection, hruntime]
  rfl

/-- The entries that settings are written as. -/
def layer (s : Settings) : Layer where
  entries := [("session", s.session.toJson), ("detection", s.detection.toJson)] ++ s.runtime.fields
  nodup := (by decide : ("session" :: "detection" :: Runtime.names).Nodup)

/-- Settings that are written give each field in its section. -/
theorem sheet_ofJson_toJson (s : Settings) : Sheet.ofJson s.toJson = .ok s.sheet := by
  obtain ⟨hsession, hdetection, hruntime⟩ := entries_sheet s
  have hlayer : Layer.ofJson s.toJson = .ok s.layer := Layer.ofJson_object s.layer
  have hreadSession : Layer.ofJson s.session.toJson = .ok s.sheet.session := by
    rw [Session.toJson, ← hsession]
    exact Layer.ofJson_object _
  have hreadDetection : Layer.ofJson s.detection.toJson = .ok s.sheet.detection := by
    rw [Detection.toJson, ← hdetection]
    exact Layer.ofJson_object _
  have hfindSession : s.layer.find? "session" = some s.session.toJson := rfl
  have hfindDetection : s.layer.find? "detection" = some s.detection.toJson := rfl
  -- no field of a section stands beside the sections
  have hflat : ∀ name ∈ Session.names ++ Detection.names, s.layer.find? name = none := by
    have hnames : ∀ name ∈ Session.names ++ Detection.names,
        name ∉ "session" :: "detection" :: Runtime.names := by decide
    exact fun name hname => Ledger.find?_eq_none_iff.2 (hnames name hname)
  have hother : s.layer.filter (fun name _ => !Sheet.isPlaced name) = s.sheet.other :=
    Ledger.eq_of_entries (Eq.trans rfl hruntime.symm)
  simp only [Sheet.ofJson, Sheet.ofLayer, hlayer, hfindSession, hfindDetection, Option.getD_some,
    hreadSession, hreadDetection, hother, bind, Except.bind, pure, Except.pure]
  rw [Sheet.withFlat_of_absent fun name hname => hflat name (List.mem_append_left _ hname),
    Sheet.withFlat_of_absent fun name hname => hflat name (List.mem_append_right _ hname)]

theorem ofJson_toJson (s : Settings) : ofJson s.toJson = .ok s := by
  rw [ofJson, sheet_ofJson_toJson]
  exact congrArg Except.ok (ofSheet_sheet s)

/-- Over other settings nothing of them is left. -/
theorem merge_sheet (s s' : Settings) : s.sheet.merge s'.sheet = s'.sheet := by
  obtain ⟨hsession, hdetection, hruntime⟩ := entries_sheet s
  obtain ⟨hsession', hdetection', hruntime'⟩ := entries_sheet s'
  have hsame : s.sheet.session.keys = s'.sheet.session.keys ∧
      s.sheet.detection.keys = s'.sheet.detection.keys ∧
      s.sheet.other.keys = s'.sheet.other.keys := by
    simp only [Ledger.keys, hsession, hdetection, hruntime, hsession', hdetection', hruntime']
    exact ⟨rfl, rfl, rfl⟩
  rw [Sheet.merge, Ledger.update_of_keys hsame.1, Ledger.update_of_keys hsame.2.1,
    Ledger.update_of_keys hsame.2.2]

theorem resolve_object (fields : List (String × Json)) :
    resolve (.object fields) =
      (overridden (.object fields) >>= fun sheet => (ofSheet sheet).ensureValid) := by
  rw [resolve]

/-- Settings that are written are only checked again. -/
theorem resolve_toJson (s : Settings) : resolve s.toJson = s.ensureValid := by
  have hoverridden : overridden s.toJson = .ok s.sheet := by
    rw [overridden, sheet_ofJson_toJson]
    exact congrArg Except.ok (merge_sheet defaults s)
  rw [toJson] at hoverridden ⊢
  rw [resolve_object, hoverridden]
  simp only [bind, Except.bind, ofSheet_sheet]

/-- Settings that overrides resolve to pass their check. -/
theorem ensureValid_of_resolve {overrides : Json} (h : resolve overrides = .ok s) :
    s.ensureValid = .ok s := by
  have hvalid {t : Settings} (ht : t.ensureValid = .ok s) : s.ensureValid = .ok s := by
    obtain ⟨_, -, he⟩ := bind_eq_ok_iff.1 ht
    cases he
    exact ht
  unfold resolve at h
  split at h
  next => exact hvalid h
  next =>
    obtain ⟨sheet, -, hsheet⟩ := bind_eq_ok_iff.1 h
    exact hvalid hsheet
  next => cases h

/-! ### The saved text -/

theorem isWritable_toJson_iff :
    s.toJson.isWritable = true ↔ ∀ field ∈ s.fields, field.2.isWritable = true := by
  simp only [toJson, Session.toJson, Detection.toJson, Json.isWritable_object_iff, fields,
    List.forall_mem_append, List.forall_mem_cons, List.not_mem_nil, false_imp_iff, implies_true,
    and_true]

theorem namesApart_toJson_iff :
    s.toJson.namesApart = true ↔ ∀ field ∈ s.fields, field.2.namesApart = true := by
  have hsession : (s.session.fields.map Prod.fst).Nodup := (by decide : Session.names.Nodup)
  have hdetection : (s.detection.fields.map Prod.fst).Nodup :=
    (by decide : Detection.names.Nodup)
  have hnames : (([("session", Json.object s.session.fields),
      ("detection", Json.object s.detection.fields)] ++ s.runtime.fields).map Prod.fst).Nodup :=
    s.layer.nodup
  simp only [toJson, Session.toJson, Detection.toJson, Json.namesApart_object_iff, fields,
    List.forall_mem_append, List.forall_mem_cons, List.not_mem_nil, false_imp_iff, implies_true,
    and_true, hsession, hdetection, hnames, true_and]

variable {room : ℕ}

theorem save_of_nestsWithin (h : s.NestsWithin room) : s.save room =
    if s.toJson.isWritable then .ok (s.toJson.render .indented) else .error .numeralTooLong := by
  rw [save, copied_of_nestsWithin h]
  simp only [bind, Except.bind, Json.render?]
  split_ifs <;> rfl

theorem save_eq_error (h : ¬ s.NestsWithin room) : s.save room = .error .nestedTooDeep := by
  rw [save, copied_eq_error h]
  rfl

theorem load_render (hnames : ∀ field ∈ s.fields, field.2.namesApart = true)
    (hwritable : s.toJson.isWritable = true) : load (s.toJson.render .indented) = .ok s := by
  have hread : Json.parse? (s.toJson.render .indented) = some s.toJson :=
    Json.parse?_render ⟨hwritable, namesApart_toJson_iff.2 hnames⟩ .indented
  rw [load, hread]
  exact ofJson_toJson s

/-- With room for a copy, settings are saved unless one of their integers is too long. What is saved
is plain text, whatever Unicode scalar values the settings are spelled in, and is loaded as it was.
Settings that overrides resolve to can be copied if there is room for the overrides, and the copy
resolves to them. -/
theorem saved_settings_load_back (room : ℕ) :
    (∀ s : Settings, (∀ field ∈ s.fields, field.2.namesApart = true ∧ field.2.depth ≤ room) →
      ((∃ text, s.save room = .ok text) ↔ ∀ field ∈ s.fields, field.2.isWritable = true) ∧
      ∀ text, s.save room = .ok text → Json.AllPlain text.toList ∧ load text = .ok s) ∧
    ∀ overrides s, resolve overrides = .ok s →
      (overrides.depth ≤ room → ∃ value, s.copied room = .ok value) ∧
      ∀ value, s.copied room = .ok value → resolve value = .ok s := by
  refine ⟨fun s h => ?_, fun overrides s h => ⟨fun hroom => ?_, fun value hvalue => ?_⟩⟩
  · have hnests : s.NestsWithin room := fun field hfield =>
      (h field (List.mem_append_left _ hfield)).2
    rw [← isWritable_toJson_iff, save_of_nestsWithin hnests]
    split_ifs with hwritable
    · refine ⟨iff_of_true ⟨_, rfl⟩ hwritable, fun text htext => ?_⟩
      obtain rfl := Except.ok.inj htext
      have hnames : ∀ field ∈ s.fields, field.2.namesApart = true := fun field hfield =>
        (h field hfield).1
      exact ⟨Json.allPlain_render _ _, load_render hnames hwritable⟩
    · exact ⟨iff_of_false (by rintro ⟨_, ⟨⟩⟩) hwritable, fun text htext => by cases htext⟩
  · exact ⟨_, copied_of_nestsWithin (nestsWithin_of_resolve hroom h)⟩
  · by_cases hnests : s.NestsWithin room
    · rw [copied_of_nestsWithin hnests] at hvalue
      rw [← Except.ok.inj hvalue, resolve_toJson]
      exact ensureValid_of_resolve h
    · rw [copied_eq_error hnests] at hvalue
      cases hvalue

/-- Settings with a nested value, a number without digits, the smallest double and a long
integer. -/
def unusual : Settings where
  session := {
    processMode := .list
      [.str "caf\u00e9 \"😀\"\n", .object [("cap", .float (.infinite true))], .list []]
    resolution := .float (5e-324)
    randomSeed := .int (-10 ^ 40) }
  runtime := { logLevel := .null }

/-- Overrides with a field in its section and one beside the sections. -/
def overlapping : Json :=
  .object [("session", .object [("allow_overlap", .bool true)]), ("min_support", .int 3)]

/-- The settings that they resolve to. -/
def tightened : Settings where
  session := { allowOverlap := .bool true }
  detection := { minSupport := .int 3 }

theorem resolve_overlapping : resolve overlapping = .ok tightened := by
  have hsheet : overridden overlapping = .ok tightened.sheet := rfl
  have hnone : tightened.complaints = .ok [] := by decide +kernel
  rw [overlapping] at hsheet ⊢
  rw [resolve_object, hsheet]
  simp only [bind, Except.bind, ofSheet_sheet, ensureValid, hnone]
  rfl

theorem unusual_settings_load_back :
    (∀ field ∈ unusual.fields, field.2.namesApart = true ∧ field.2.depth ≤ stackRoom) ∧
    (∃ text, unusual.save stackRoom = .ok text ∧ load text = .ok unusual) ∧
    resolve overlapping = .ok tightened ∧ overlapping.depth ≤ stackRoom ∧
    ∃ value, tightened.copied stackRoom = .ok value ∧ resolve value = .ok tightened := by
  have hfields : ∀ field ∈ unusual.fields,
      field.2.namesApart = true ∧ field.2.depth ≤ stackRoom := by decide +kernel
  have hroom : overlapping.depth ≤ stackRoom := by decide
  obtain ⟨hsaved, hresolved⟩ := saved_settings_load_back stackRoom
  obtain ⟨hwritable, hload⟩ := hsaved unusual hfields
  obtain ⟨text, htext⟩ := hwritable.2 (by decide +kernel)
  obtain ⟨hcopied, hagain⟩ := hresolved overlapping tightened resolve_overlapping
  obtain ⟨value, hvalue⟩ := hcopied hroom
  exact ⟨hfields, ⟨text, htext, (hload text htext).2⟩, resolve_overlapping, hroom, value, hvalue,
    hagain value hvalue⟩

/-! ### Settings that are not saved -/

theorem isWritable_int_iff {n : ℤ} :
    (Json.int n).isWritable = true ↔ n.natAbs < 10 ^ Text.maxNumeralDigits :=
  decide_eq_true_iff.trans (Nat.length_toDigits_le_iff (by decide) (by decide))

/-- Settings with so many workers. -/
def crowded (n : ℕ) : Settings where
  runtime := { numWorkers := .int n }

theorem lt_of_isWritable_crowded {n : ℕ} (h : (crowded n).toJson.isWritable = true) :
    n < 10 ^ Text.maxNumeralDigits := by
  have hworkers : (Json.int n).isWritable = true :=
    isWritable_toJson_iff.1 h ("num_workers", .int n) (by simp [crowded, fields, Runtime.fields])
  rwa [isWritable_int_iff, Int.natAbs_natCast] at hworkers

/-- A number in as many lists. -/
def nested : ℕ → Json
  | 0 => .int 1
  | n + 1 => .list [nested n]

theorem depth_nested (n : ℕ) : (nested n).depth = n := by
  induction n with
  | zero => rfl
  | succ n ih => simp [nested, Json.depth, Json.depthOfItems, ih]

/-- Settings with a seed in more lists than there is room for. -/
def burrowing : Settings where
  session := { randomSeed := nested 500 }

/-- No check looks at a seed. -/
theorem ensureValid_burrowing : burrowing.ensureValid = .ok burrowing := by
  have hsame : burrowing.complaints = defaults.complaints := by
    unfold complaints complaintsAbout Session.complaints
    rfl
  have hvalid : defaults.complaints = .ok [] := by decide +kernel
  rw [ensureValid, hsame, hvalid]
  rfl

/-- A number of one digit too many is not written, and there is no copy of what is nested too
deep. -/
theorem crowded_and_burrowing_settings_are_lost :
    (crowded (10 ^ Text.maxNumeralDigits)).save stackRoom = .error .numeralTooLong ∧
    resolve burrowing.toJson = .ok burrowing ∧
    burrowing.copied stackRoom = .error .nestedTooDeep ∧
    burrowing.save stackRoom = .error .nestedTooDeep := by
  have hcrowded (n : ℕ) : (crowded n).NestsWithin stackRoom := fun field hfield =>
    Settings.nestsWithin_defaults field hfield
  have hburrowing : ¬ burrowing.NestsWithin stackRoom := fun h => by
    have hdepth := h ("leiden_random_seed", nested 500) (by simp [burrowing, Session.fields])
    rw [depth_nested] at hdepth
    exact absurd hdepth (by decide)
  refine ⟨?_, (resolve_toJson burrowing).trans ensureValid_burrowing, copied_eq_error hburrowing,
    save_eq_error hburrowing⟩
  rw [save_of_nestsWithin (hcrowded _)]
  exact if_neg fun hwritable => lt_irrefl _ (lt_of_isWritable_crowded hwritable)

end Settings
end RoleMining
