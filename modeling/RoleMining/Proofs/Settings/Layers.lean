import Mathlib.Data.List.Basic
import RoleMining.Proofs.Ledger
import RoleMining.Proofs.Results
import RoleMining.Settings.Resolve

/-!
# Which layer gives a field

A value gives a field in its section or flat beside the sections, and the section's own value wins.
Of two values, one laid over the other, the upper one wins, wherever each of them gives the field.
So a laid over value is found by asking four places in turn, laying over is associative, a value
laid over an empty one is only put in order, and nothing is left to order twice: a sheet keeps no
flat value of a section.
-/
namespace RoleMining

/-- What a value gives: the fields of its two sections, and its flat values. -/
structure Given where
  session : Layer
  detection : Layer
  flat : Layer

namespace Given

/-- A value is an object or a list of pairs, and so are its sections; an empty section, or one that
is absent, gives nothing. -/
def ofJson (value : Json) : Except Failure Given := do
  let flat ← Layer.ofJson value
  let session ← Layer.ofJson ((flat.find? "session").getD .null)
  let detection ← Layer.ofJson ((flat.find? "detection").getD .null)
  return { session, detection, flat }

variable (given : Given) (name : String)

def session? : Option Json := (given.session.find? name).or (given.flat.find? name)

def detection? : Option Json := (given.detection.find? name).or (given.flat.find? name)

def runtime? : Option Json := given.flat.find? name

/-- The same in order: every field in its section. -/
def sheet : Sheet where
  session := Sheet.withFlat Session.names given.flat given.session
  detection := Sheet.withFlat Detection.names given.flat given.detection
  other := given.flat.filter fun name _ => !Sheet.isPlaced name

end Given

/-! ### Sheets -/

namespace Sheet

theorem ofJson_eq (value : Json) : ofJson value = return (← Given.ofJson value).sheet := by
  simp only [ofJson, ofLayer, Given.ofJson, Given.sheet, bind_assoc, pure_bind]

theorem find?_withFlat (names : List String) (flat placed : Layer) (name : String) :
    (withFlat names flat placed).find? name =
      (placed.find? name).or (if name ∈ names then flat.find? name else none) := by
  unfold withFlat
  induction names generalizing placed with
  | nil => simp
  | cons first names ih =>
    rw [List.foldl_cons, ih]
    cases hflat : flat.find? first with
    | none =>
      by_cases he : name = first
      · subst he; simp [hflat]
      · simp [he]
    | some value =>
      rw [Ledger.find?_recordNew]
      by_cases he : name = first
      · subst he
        cases placed.find? name <;> simp [hflat]
      · simp [he]

/-- With no flat value of its names a section stays as it is. -/
theorem withFlat_of_absent {names : List String} {flat placed : Layer}
    (h : ∀ name ∈ names, flat.find? name = none) : withFlat names flat placed = placed := by
  unfold withFlat
  induction names with
  | nil => rfl
  | cons first names ih =>
    rw [List.foldl_cons, h first List.mem_cons_self]
    exact ih fun name hname => h name (List.mem_cons_of_mem first hname)

/-- A sheet has every field of a section in the section. -/
def Apart (sheet : Sheet) : Prop := ∀ name ∈ sheet.other.keys, isPlaced name = false

theorem apart_sheet (given : Given) : given.sheet.Apart := by
  intro name hname
  obtain ⟨value, hvalue⟩ := Ledger.mem_keys_iff.1 hname
  have hmem := List.mem_filter.1 (Ledger.mem_entries_iff.2 hvalue)
  simpa using hmem.2

theorem Apart.merge {base top : Sheet} (hbase : base.Apart) (htop : top.Apart) :
    (base.merge top).Apart := by
  intro name hname
  rw [Sheet.merge, Ledger.keys_update, List.mem_append, List.mem_filter] at hname
  rcases hname with hname | hname
  · exact hbase name hname
  · exact htop name hname.1

theorem merge_assoc (s s' s'' : Sheet) : (s.merge s').merge s'' = s.merge (s'.merge s'') := by
  simp only [merge, Ledger.update_assoc]

theorem empty_merge (s : Sheet) : merge {} s = s := by
  simp only [merge, Ledger.empty_update]

end Sheet

/-! ### Sheets as values -/

theorem Layer.ofJson_object (layer : Layer) : Layer.ofJson (.object layer.entries) = .ok layer := by
  unfold Layer.ofJson
  split_ifs with hempty
  · have hnil : layer.entries = [] := List.isEmpty_iff.1 hempty
    exact congrArg Except.ok (Ledger.eq_of_entries hnil.symm)
  · exact congrArg Except.ok (Ledger.ofList_entries layer)

namespace Sheet

variable {sheet : Sheet}

/-- The layer that a sheet is written as: its other entries, then the two sections. -/
def Apart.layer (h : sheet.Apart) : Layer where
  entries := sheet.other.entries ++
    [("session", .object sheet.session.entries), ("detection", .object sheet.detection.entries)]
  nodup := by
    have hsession : "session" ∉ sheet.other.keys := fun hname => nomatch h _ hname
    have hdetection : "detection" ∉ sheet.other.keys := fun hname => nomatch h _ hname
    rw [List.map_append, List.nodup_append]
    refine ⟨sheet.other.nodup, by simp, ?_⟩
    rintro name hname _ hsection rfl
    rcases List.mem_pair.1 hsection with rfl | rfl
    · exact hsession hname
    · exact hdetection hname

/-- A sheet that is written and read again is the same. -/
theorem Apart.ofJson_toJson (h : sheet.Apart) : ofJson sheet.toJson = .ok sheet := by
  have hread : Layer.ofJson sheet.toJson = .ok h.layer := Layer.ofJson_object h.layer
  have hsession : h.layer.find? "session" = some (.object sheet.session.entries) :=
    Ledger.mem_entries_iff.1 (by simp [layer])
  have hdetection : h.layer.find? "detection" = some (.object sheet.detection.entries) :=
    Ledger.mem_entries_iff.1 (by simp [layer])
  have hothers : h.layer.filter (fun name _ => !isPlaced name) = sheet.other := by
    refine Ledger.eq_of_entries ((List.filter_append _ _).trans ?_)
    rw [List.filter_eq_self.2]
    · simp [isPlaced]
    · intro entry hentry
      simpa using h entry.1 (List.mem_map_of_mem (f := Prod.fst) hentry)
  -- A field's name is none of the other entries' and none of the two sections'.
  have habsent (name : String) (hplaced : isPlaced name = true)
      (hfield : name ≠ "session" ∧ name ≠ "detection") : h.layer.find? name = none := by
    rw [Ledger.find?_eq_none_iff]
    intro hname
    have hother : name ∈ sheet.other.keys := by
      simpa [Ledger.keys, layer, hfield] using hname
    cases hplaced.symm.trans (h name hother)
  have hsessions : ∀ name ∈ Session.names,
      isPlaced name = true ∧ name ≠ "session" ∧ name ≠ "detection" := by decide
  have hdetections : ∀ name ∈ Detection.names,
      isPlaced name = true ∧ name ≠ "session" ∧ name ≠ "detection" := by decide
  rw [ofJson, hread]
  simp only [bind, Except.bind, ofLayer, hsession, hdetection, Option.getD_some,
    Layer.ofJson_object, hothers, pure, Except.pure]
  rw [withFlat_of_absent fun name hname =>
      habsent name (hsessions name hname).1 (hsessions name hname).2,
    withFlat_of_absent fun name hname =>
      habsent name (hdetections name hname).1 (hdetections name hname).2]

/-- A value in order. -/
def normalized (value : Json) : Except Failure Json := do
  return (← ofJson value).toJson

/-- A value with another one laid over it. -/
def overlaid (base top : Json) : Except Failure Json := do
  return ((← ofJson base).merge (← ofJson top)).toJson

theorem ofJson_eq_ok_iff {value : Json} :
    ofJson value = .ok sheet ↔ ∃ given, Given.ofJson value = .ok given ∧ given.sheet = sheet := by
  rw [ofJson_eq, bind_eq_ok_iff]
  simp [pure, Except.pure]

theorem apart_of_ofJson {value : Json} (h : ofJson value = .ok sheet) : sheet.Apart := by
  obtain ⟨given, -, rfl⟩ := ofJson_eq_ok_iff.1 h
  exact apart_sheet given

theorem overlaid_eq_ok_iff {base top result : Json} :
    overlaid base top = .ok result ↔
      ∃ lower upper, ofJson base = .ok lower ∧ ofJson top = .ok upper ∧
        (lower.merge upper).toJson = result := by
  rw [overlaid, bind_eq_ok_iff]
  simp [bind_eq_ok_iff, pure, Except.pure]

/-- What is laid over another is read again as the one sheet over the other. -/
theorem ofJson_of_overlaid {base top : Json} {lower upper : Sheet} (hbase : ofJson base = .ok lower)
    (htop : ofJson top = .ok upper) :
    ∃ result, overlaid base top = .ok result ∧ ofJson result = .ok (lower.merge upper) :=
  ⟨_, overlaid_eq_ok_iff.2 ⟨lower, upper, hbase, htop, rfl⟩,
    ((apart_of_ofJson hbase).merge (apart_of_ofJson htop)).ofJson_toJson⟩

theorem normalized_normalized (value : Json) :
    (normalized value >>= normalized) = normalized value := by
  cases hread : ofJson value with
  | error e => simp only [normalized, hread, bind, Except.bind]
  | ok sheet =>
    have hagain := (apart_of_ofJson hread).ofJson_toJson
    simp only [normalized, hread, hagain, bind, Except.bind, pure, Except.pure]

theorem overlaid_bind_eq_ok_iff {base top result : Json} {next : Json → Except Failure Json} :
    (overlaid base top >>= next) = .ok result ↔
      ∃ lower upper, ofJson base = .ok lower ∧ ofJson top = .ok upper ∧
        next (lower.merge upper).toJson = .ok result := by
  simp only [bind_eq_ok_iff, overlaid_eq_ok_iff]
  constructor
  · rintro ⟨_, ⟨lower, upper, hbase, htop, rfl⟩, hnext⟩
    exact ⟨lower, upper, hbase, htop, hnext⟩
  · rintro ⟨lower, upper, hbase, htop, hnext⟩
    exact ⟨_, ⟨lower, upper, hbase, htop, rfl⟩, hnext⟩

theorem overlaid_assoc (first second third result : Json) :
    (overlaid first second >>= fun value => overlaid value third) = .ok result ↔
      (overlaid second third >>= fun value => overlaid first value) = .ok result := by
  rw [overlaid_bind_eq_ok_iff, overlaid_bind_eq_ok_iff]
  constructor
  · rintro ⟨s, s', hs, hs', h⟩
    obtain ⟨both, s'', hboth, hs'', rfl⟩ := overlaid_eq_ok_iff.1 h
    cases ((apart_of_ofJson hs).merge (apart_of_ofJson hs')).ofJson_toJson.symm.trans hboth
    have hread := ((apart_of_ofJson hs').merge (apart_of_ofJson hs'')).ofJson_toJson
    refine ⟨s', s'', hs', hs'', overlaid_eq_ok_iff.2 ⟨s, _, hs, hread, ?_⟩⟩
    rw [merge_assoc]
  · rintro ⟨s', s'', hs', hs'', h⟩
    obtain ⟨s, both, hs, hboth, rfl⟩ := overlaid_eq_ok_iff.1 h
    cases ((apart_of_ofJson hs').merge (apart_of_ofJson hs'')).ofJson_toJson.symm.trans hboth
    have hread := ((apart_of_ofJson hs).merge (apart_of_ofJson hs')).ofJson_toJson
    refine ⟨s, s', hs, hs', overlaid_eq_ok_iff.2 ⟨_, s'', hread, hs'', ?_⟩⟩
    rw [merge_assoc]

theorem ofJson_object_nil : ofJson (.object []) = .ok {} := rfl

theorem overlaid_empty (value : Json) : overlaid value (.object []) = normalized value := by
  rw [overlaid, ofJson_object_nil]
  rfl

theorem empty_overlaid (value : Json) : overlaid (.object []) value = normalized value := by
  rw [overlaid, ofJson_object_nil, normalized]
  simp only [bind, Except.bind, empty_merge]

end Sheet

/-! ### The fields of settings -/

/-- Fields with what is given for them in place of their own values. -/
def Fields.filled (fields : Fields) (given : String → Option Json) : Fields :=
  fields.map fun field => (field.1, (given field.1).getD field.2)

theorem Fields.filled_congr {fields : Fields} {given given' : String → Option Json}
    (h : ∀ name ∈ fields.map Prod.fst, given name = given' name) :
    fields.filled given = fields.filled given' :=
  List.map_congr_left fun field hfield => by rw [h field.1 (List.mem_map_of_mem hfield)]

/-- To give the fields their own values below all others changes nothing. -/
theorem Fields.filled_or_own {fields : Fields} (hnames : (fields.map Prod.fst).Nodup)
    (given : String → Option Json) :
    fields.filled (fun name => (given name).or ((Ledger.ofList fields).find? name)) =
      fields.filled given := by
  refine List.map_congr_left fun field hfield => ?_
  have hown := (Ledger.find?_ofList_eq_some_iff hnames).2 hfield
  cases hgiven : given field.1 <;> simp [hgiven, hown]

/-- The values that a sheet has for the names of fields. -/
structure Sheet.Gives (sheet : Sheet) (session detection runtime : String → Option Json) : Prop where
  session_eq : ∀ name ∈ Session.names, sheet.session.find? name = session name
  detection_eq : ∀ name ∈ Detection.names, sheet.detection.find? name = detection name
  runtime_eq : ∀ name ∈ Runtime.names, sheet.other.find? name = runtime name

namespace Sheet.Gives

variable {s s' : Sheet} {session session' detection detection' runtime runtime' : String → Option Json}

theorem of_given (given : Given) :
    given.sheet.Gives given.session? given.detection? given.runtime? where
  session_eq name hname := by
    rw [Given.sheet, find?_withFlat, if_pos hname, Given.session?]
  detection_eq name hname := by
    rw [Given.sheet, find?_withFlat, if_pos hname, Given.detection?]
  runtime_eq name hname := by
    have hplaced : ∀ name ∈ Runtime.names, isPlaced name = false := by decide
    rw [Given.sheet, Ledger.find?_filter, Given.runtime?]
    cases given.flat.find? name <;> simp [hplaced name hname]

/-- What the upper sheet gives comes before what the lower one gives. -/
theorem merge (h : s.Gives session detection runtime) (h' : s'.Gives session' detection' runtime') :
    (s.merge s').Gives (fun name => (session' name).or (session name))
      (fun name => (detection' name).or (detection name))
      (fun name => (runtime' name).or (runtime name)) where
  session_eq name hname := by
    rw [Sheet.merge, Ledger.find?_update, h.session_eq name hname, h'.session_eq name hname]
  detection_eq name hname := by
    rw [Sheet.merge, Ledger.find?_update, h.detection_eq name hname, h'.detection_eq name hname]
  runtime_eq name hname := by
    rw [Sheet.merge, Ledger.find?_update, h.runtime_eq name hname, h'.runtime_eq name hname]

theorem fields_eq (h : s.Gives session detection runtime) :
    (Settings.ofSheet s).session.fields = Fields.filled ({} : Session).fields session ∧
      (Settings.ofSheet s).detection.fields = Fields.filled ({} : Detection).fields detection ∧
      (Settings.ofSheet s).runtime.fields = Fields.filled ({} : Runtime).fields runtime :=
  ⟨Fields.filled_congr h.session_eq, Fields.filled_congr h.detection_eq,
    Fields.filled_congr h.runtime_eq⟩

end Sheet.Gives

/-! ### A batch run -/

/-- What the environment says of a field. -/
def Environment.setting? (env : Environment) (name : String) : Option Json :=
  if name = "log_level" then
    (env.nonEmpty? "LOG_LEVEL").map fun text => .str (Text.upper (Text.strip text))
  else if name = "num_workers" then
    ((env.nonEmpty? "NUM_WORKERS").bind Text.integer?).map .int
  else none

namespace Settings

variable {env : Environment}

/-- The environment is a layer, unless it gives a number of workers that is none. -/
theorem environmentLayer_eq
    (h : ∀ text, env.nonEmpty? "NUM_WORKERS" = some text → ∃ n, Text.integer? text = some n) :
    ∃ layer, environmentLayer env = .ok layer ∧ layer.find? = env.setting? := by
  have hfound (entries : List (String × Json))
      (he : ∀ name, valueAt name entries.reverse = env.setting? name) :
      (Ledger.ofList entries).find? = env.setting? :=
    funext fun name => (Ledger.find?_ofList entries name).trans (he name)
  unfold environmentLayer
  cases hworkers : env.nonEmpty? "NUM_WORKERS" with
  | none =>
    refine ⟨_, rfl, hfound _ fun name => ?_⟩
    cases hlevel : env.nonEmpty? "LOG_LEVEL" <;>
      simp [Environment.setting?, hworkers, hlevel, valueAt, eq_comm]
  | some text =>
    obtain ⟨n, hn⟩ := h text hworkers
    simp only [hn]
    refine ⟨_, rfl, hfound _ fun name => ?_⟩
    by_cases hname : name = "log_level"
    · subst hname
      cases hlevel : env.nonEmpty? "LOG_LEVEL" <;>
        simp [Environment.setting?, hlevel, valueAt]
    · cases hlevel : env.nonEmpty? "LOG_LEVEL" <;>
        simp [Environment.setting?, hworkers, hn, valueAt, eq_comm, hname]

theorem environmentLayer_eq_error {text : String} (hset : env.nonEmpty? "NUM_WORKERS" = some text)
    (hnone : Text.integer? text = none) :
    environmentLayer env =
      .error (.configurationError (.environmentNotInteger "NUM_WORKERS" text)) := by
  simp [environmentLayer, hset, hnone, bind, Except.bind, throw, throwThe, MonadExceptOf.throw]

/-- The sheet on which every field has its default. -/
theorem gives_defaults :
    defaults.sheet.Gives (Ledger.ofList ({} : Session).fields).find?
      (Ledger.ofList ({} : Detection).fields).find? (Ledger.ofList ({} : Runtime).fields).find? :=
  ⟨fun _ _ => rfl, fun _ _ => rfl, fun _ _ => rfl⟩

/-- The environment's sheet gives no field of a section. -/
theorem gives_environment {layer : Layer} (h : layer.find? = env.setting?) :
    ∃ sheet, Sheet.ofLayer layer = .ok sheet ∧
      sheet.Gives (fun _ => none) (fun _ => none) env.setting? := by
  have hother : ∀ name ∈ "session" :: "detection" :: (Session.names ++ Detection.names),
      name ≠ "log_level" ∧ name ≠ "num_workers" := by decide
  have hnone (name : String)
      (hname : name ∈ "session" :: "detection" :: (Session.names ++ Detection.names)) :
      layer.find? name = none := by
    rw [h, Environment.setting?, if_neg (hother name hname).1, if_neg (hother name hname).2]
  let given : Given := { session := .empty, detection := .empty, flat := layer }
  have hgives := Sheet.Gives.of_given given
  refine ⟨given.sheet, ?_, fun name hname => ?_, fun name hname => ?_, fun name hname => ?_⟩
  · rw [Sheet.ofLayer, hnone "session" (by simp), hnone "detection" (by simp)]
    rfl
  · rw [hgives.session_eq name hname]
    exact hnone name (by simp [hname])
  · rw [hgives.detection_eq name hname]
    exact hnone name (by simp [hname])
  · rw [hgives.runtime_eq name hname, ← h]
    rfl

/-- In a batch run the environment stands above the file, and the file above the defaults. -/
theorem layered_eq {file : Json} {given : Given} (hfile : Given.ofJson file = .ok given)
    (hworkers : ∀ text, env.nonEmpty? "NUM_WORKERS" = some text →
      ∃ n, Text.integer? text = some n) :
    ∃ settings : Settings, layered file env = settings.ensureValid ∧
      settings.session.fields = Fields.filled ({} : Session).fields given.session? ∧
      settings.detection.fields = Fields.filled ({} : Detection).fields given.detection? ∧
      settings.runtime.fields = Fields.filled ({} : Runtime).fields fun name =>
        (env.setting? name).or (given.runtime? name) := by
  obtain ⟨layer, hlayer, hfind⟩ := environmentLayer_eq hworkers
  obtain ⟨top, htop, hgives⟩ := gives_environment hfind
  have hsheet : Sheet.ofJson file = .ok given.sheet := Sheet.ofJson_eq_ok_iff.2 ⟨given, hfile, rfl⟩
  obtain ⟨hsession, hdetection, hruntime⟩ :=
    ((gives_defaults.merge (.of_given given)).merge hgives).fields_eq
  refine ⟨.ofSheet ((defaults.sheet.merge given.sheet).merge top), ?_, ?_, ?_, ?_⟩
  · simp only [layered, overridden, hsheet, hlayer, htop, bind, Except.bind, pure, Except.pure]
  · exact hsession.trans (Fields.filled_or_own (by decide) given.session?)
  · exact hdetection.trans (Fields.filled_or_own (by decide) given.detection?)
  · refine hruntime.trans ?_
    simp only [← Option.or_assoc]
    exact Fields.filled_or_own (by decide) _

theorem layered_eq_error {file : Json} {given : Given} {text : String}
    (hfile : Given.ofJson file = .ok given) (hset : env.nonEmpty? "NUM_WORKERS" = some text)
    (hnone : Text.integer? text = none) :
    layered file env =
      .error (.configurationError (.environmentNotInteger "NUM_WORKERS" text)) := by
  have hsheet : Sheet.ofJson file = .ok given.sheet := Sheet.ofJson_eq_ok_iff.2 ⟨given, hfile, rfl⟩
  simp only [layered, overridden, hsheet, environmentLayer_eq_error hset hnone, bind, Except.bind,
    pure, Except.pure]

theorem ofJson_of_overlaid {base top : Json} {lower upper : Given}
    (hbase : Given.ofJson base = .ok lower) (htop : Given.ofJson top = .ok upper) :
    ∃ merged settings, Sheet.overlaid base top = .ok merged ∧ ofJson merged = .ok settings ∧
      settings.session.fields = Fields.filled ({} : Session).fields (fun name =>
        (upper.session? name).or (lower.session? name)) ∧
      settings.detection.fields = Fields.filled ({} : Detection).fields (fun name =>
        (upper.detection? name).or (lower.detection? name)) ∧
      settings.runtime.fields = Fields.filled ({} : Runtime).fields fun name =>
        (upper.runtime? name).or (lower.runtime? name) := by
  obtain ⟨merged, hmerged, hread⟩ := Sheet.ofJson_of_overlaid
    (Sheet.ofJson_eq_ok_iff.2 ⟨lower, hbase, rfl⟩) (Sheet.ofJson_eq_ok_iff.2 ⟨upper, htop, rfl⟩)
  have hfields := ((Sheet.Gives.of_given lower).merge (.of_given upper)).fields_eq
  refine ⟨merged, ofSheet (lower.sheet.merge upper.sheet), hmerged, ?_, hfields⟩
  rw [ofJson, hread]
  rfl

/-- One precedence for all layers. Two values lay one over the other when both of them can be read;
each field of a section is then the upper value's own, in its section before flat, before the lower
one's, in its section before flat, before the default. A value in order stays as it is, the order in
which three values are laid is one, and an empty object only brings a value in order. In a batch run
the environment stands above the file, in whatever place the file gives a field, and the file above
the defaults. -/
theorem layers_have_one_precedence :
    (∀ base top, (∃ merged, Sheet.overlaid base top = .ok merged) ↔
      (∃ lower, Given.ofJson base = .ok lower) ∧ ∃ upper, Given.ofJson top = .ok upper) ∧
    (∀ base top lower upper, Given.ofJson base = .ok lower → Given.ofJson top = .ok upper →
      ∃ merged settings, Sheet.overlaid base top = .ok merged ∧ ofJson merged = .ok settings ∧
        settings.session.fields = Fields.filled ({} : Session).fields (fun name =>
          (upper.session? name).or (lower.session? name)) ∧
        settings.detection.fields = Fields.filled ({} : Detection).fields (fun name =>
          (upper.detection? name).or (lower.detection? name)) ∧
        settings.runtime.fields = Fields.filled ({} : Runtime).fields fun name =>
          (upper.runtime? name).or (lower.runtime? name)) ∧
    (∀ value, (Sheet.normalized value >>= Sheet.normalized) = Sheet.normalized value) ∧
    (∀ first second third result,
      (Sheet.overlaid first second >>= fun value => Sheet.overlaid value third) = .ok result ↔
        (Sheet.overlaid second third >>= fun value => Sheet.overlaid first value) = .ok result) ∧
    (∀ value, Sheet.overlaid value (.object []) = Sheet.normalized value ∧
      Sheet.overlaid (.object []) value = Sheet.normalized value) ∧
    (∀ file env given, Given.ofJson file = .ok given →
      (∀ text, env.nonEmpty? "NUM_WORKERS" = some text → ∃ n, Text.integer? text = some n) →
      ∃ settings : Settings, layered file env = settings.ensureValid ∧
        settings.session.fields = Fields.filled ({} : Session).fields given.session? ∧
        settings.detection.fields = Fields.filled ({} : Detection).fields given.detection? ∧
        settings.runtime.fields = Fields.filled ({} : Runtime).fields fun name =>
          (env.setting? name).or (given.runtime? name)) ∧
    ∀ file env given text, Given.ofJson file = .ok given →
      env.nonEmpty? "NUM_WORKERS" = some text → Text.integer? text = none →
      layered file env =
        .error (.configurationError (.environmentNotInteger "NUM_WORKERS" text)) := by
  refine ⟨fun base top => ⟨?_, ?_⟩, fun _ _ _ _ => ofJson_of_overlaid,
    Sheet.normalized_normalized, Sheet.overlaid_assoc,
    fun value => ⟨Sheet.overlaid_empty value, Sheet.empty_overlaid value⟩,
    fun _ _ _ => layered_eq, fun _ _ _ _ => layered_eq_error⟩
  · rintro ⟨merged, h⟩
    obtain ⟨_, _, hbase, htop, -⟩ := Sheet.overlaid_eq_ok_iff.1 h
    obtain ⟨lower, hlower, -⟩ := Sheet.ofJson_eq_ok_iff.1 hbase
    obtain ⟨upper, hupper, -⟩ := Sheet.ofJson_eq_ok_iff.1 htop
    exact ⟨⟨lower, hlower⟩, upper, hupper⟩
  · rintro ⟨⟨lower, hlower⟩, upper, hupper⟩
    obtain ⟨merged, _, hmerged, -⟩ := ofJson_of_overlaid hlower hupper
    exact ⟨merged, hmerged⟩

/-- A company's settings: a section beside flat values, one of which the section gives too. -/
def companyValues : Json :=
  .object [("session", .object [("min_members_count", .int 7)]), ("min_members_count", .int 9),
    ("random_note", .str "kept"), ("min_support", .int 3), ("num_workers", .int 2)]

/-- A team's settings: a section as a list of pairs, another one that is null, and flat values. -/
def teamValues : Json :=
  .object [("detection", .list [.list [.str "min_support", .int 4]]), ("session", .null),
    ("min_support", .int 6), ("min_members_count", .int 8), ("log_level", .str "debug")]

def teamEnvironment : Environment :=
  .ofList [("NUM_WORKERS", " 8 "), ("LOG_LEVEL", " warning ")]

theorem team_values_beat_company_values :
    (∃ lower upper, Given.ofJson companyValues = .ok lower ∧ Given.ofJson teamValues = .ok upper) ∧
    (∀ text, teamEnvironment.nonEmpty? "NUM_WORKERS" = some text →
      ∃ n, Text.integer? text = some n) ∧
    (∃ merged settings, Sheet.overlaid companyValues teamValues = .ok merged ∧
      ofJson merged = .ok settings ∧
      valueAt "min_members_count" settings.session.fields = some (.int 8) ∧
      valueAt "min_support" settings.detection.fields = some (.int 4) ∧
      valueAt "num_workers" settings.runtime.fields = some (.int 2)) ∧
    ∃ settings : Settings, layered teamValues teamEnvironment = settings.ensureValid ∧
      valueAt "min_members_count" settings.session.fields = some (.int 8) ∧
      settings.runtime.fields = [("num_workers", .int 8), ("progress_interval", .int 10000),
        ("log_level", .str "WARNING")] := by
  have hworkers : ∀ text, teamEnvironment.nonEmpty? "NUM_WORKERS" = some text →
      ∃ n, Text.integer? text = some n := by
    intro text htext
    cases htext
    exact ⟨8, by decide⟩
  obtain ⟨-, hprecedence, -, -, -, hbatch, -⟩ := layers_have_one_precedence
  refine ⟨⟨_, _, rfl, rfl⟩, hworkers, ?_, ?_⟩
  · obtain ⟨merged, settings, hmerged, hread, hsession, hdetection, hruntime⟩ :=
      hprecedence companyValues teamValues _ _ rfl rfl
    refine ⟨merged, settings, hmerged, hread, ?_, ?_, ?_⟩
    · rw [hsession]; rfl
    · rw [hdetection]; rfl
    · rw [hruntime]; rfl
  · obtain ⟨settings, hsettings, hsession, -, hruntime⟩ :=
      hbatch teamValues teamEnvironment _ rfl hworkers
    refine ⟨settings, hsettings, ?_, ?_⟩
    · rw [hsession]; rfl
    · rw [hruntime]; rfl

end Settings
end RoleMining
