import RoleMining.Population.Payload
import RoleMining.Proofs.Validity
import RoleMining.Settings.Resolve

/-!
# Values that break a service

A request whose values are bad is a bad request. There are values that no check expects, though, and
these break the service: a number or a list of lists where a section stands, an integer beyond
doubles where a number is measured, an infinite weight. For each reader this says which they are.
-/
namespace RoleMining

variable {α β : Type}

/-- A failure that is not down to a bad value. -/
def Breaks (x : Except Failure α) : Prop :=
  ∃ failure, x = .error failure ∧ failure.isBadValue = false

theorem not_breaks_ok (a : α) : ¬ Breaks (.ok a : Except Failure α) := by
  rintro ⟨failure, h, -⟩
  cases h

theorem breaks_error_iff {failure : Failure} :
    Breaks (.error failure : Except Failure α) ↔ failure.isBadValue = false := by
  constructor
  · rintro ⟨_, h, hbad⟩
    rwa [Except.error.inj h]
  · exact fun hbad => ⟨failure, rfl, hbad⟩

theorem not_breaks_error {failure : Failure} (h : failure.isBadValue = true) :
    ¬ Breaks (.error failure : Except Failure α) := by
  rw [breaks_error_iff, h]
  decide

theorem breaks_bind_iff {x : Except Failure α} {f : α → Except Failure β} :
    Breaks (x >>= f) ↔ Breaks x ∨ ∃ a, x = .ok a ∧ Breaks (f a) := by
  cases x with
  | ok a => simp [not_breaks_ok, bind, Except.bind]
  | error failure => simp [breaks_error_iff, bind, Except.bind]

/-- A second step that never fails breaks nothing. -/
theorem breaks_bind_ok_iff {x : Except Failure α} {f : α → Except Failure β}
    (hf : ∀ a, ∃ b, f a = .ok b) : Breaks (x >>= f) ↔ Breaks x := by
  refine breaks_bind_iff.trans (or_iff_left ?_)
  rintro ⟨a, -, hbreaks⟩
  obtain ⟨b, hb⟩ := hf a
  exact not_breaks_ok b (hb ▸ hbreaks)

/-- Some element of a list stops, and all before it pass. -/
inductive StopsAt (passes stops : α → Prop) : List α → Prop
  | here {x : α} {xs : List α} (h : stops x) : StopsAt passes stops (x :: xs)
  | later {x : α} {xs : List α} (hx : passes x) (h : StopsAt passes stops xs) :
    StopsAt passes stops (x :: xs)

theorem not_stopsAt_nil {passes stops : α → Prop} : ¬ StopsAt passes stops [] :=
  fun h => nomatch h

theorem stopsAt_cons_iff {passes stops : α → Prop} {x : α} {xs : List α} :
    StopsAt passes stops (x :: xs) ↔ stops x ∨ passes x ∧ StopsAt passes stops xs := by
  constructor
  · intro h
    cases h with
    | here h => exact .inl h
    | later hx h => exact .inr ⟨hx, h⟩
  · rintro (h | ⟨hx, h⟩)
    · exact .here h
    · exact .later hx h

/-- The steps of a list break when the first of them that fails does. -/
theorem breaks_mapM_iff {f : α → Except Failure β} {xs : List α} :
    Breaks (xs.mapM f) ↔ StopsAt (fun x => ∃ b, f x = .ok b) (fun x => Breaks (f x)) xs := by
  induction xs with
  | nil => exact iff_of_false (not_breaks_ok []) not_stopsAt_nil
  | cons x xs ih =>
    rw [List.mapM_cons, breaks_bind_iff, stopsAt_cons_iff, ← ih, exists_and_right.symm]
    refine or_congr_right (exists_congr fun b => and_congr_right fun _ => ?_)
    exact breaks_bind_ok_iff fun _ => ⟨_, rfl⟩

/-! ### Layers -/

/-- A value without elements. -/
inductive Json.IsAtom : Json → Prop
  | null : IsAtom .null
  | bool (b : Bool) : IsAtom (.bool b)
  | int (n : ℤ) : IsAtom (.int n)
  | float (x : Binary64) : IsAtom (.float x)

/-- A list or an object, neither of which can be a key. -/
inductive Json.IsContainer : Json → Prop
  | list (items : List Json) : IsContainer (.list items)
  | object (fields : Fields) : IsContainer (.object fields)

namespace Layer

variable {layer : Layer} {index : ℕ} {value pair : Json} {pairs : List Json}

theorem keyName?_eq_none_iff {key : Json} : keyName? key = none ↔ key.IsContainer := by
  cases key with
  | list items => exact iff_of_true rfl (.list items)
  | object fields => exact iff_of_true rfl (.object fields)
  | _ => exact iff_of_false (by simp [keyName?]) fun h => nomatch h

theorem pairParts_eq_error_iff {failure : Failure} :
    pairParts value = .error failure ↔ value.IsAtom ∧ failure = .wrongType := by
  cases value with
  | null => simp [pairParts, Json.IsAtom.null, eq_comm]
  | bool b => simp [pairParts, Json.IsAtom.bool, eq_comm]
  | int n => simp [pairParts, Json.IsAtom.int, eq_comm]
  | float x => simp [pairParts, Json.IsAtom.float, eq_comm]
  | _ => exact iff_of_false (by simp [pairParts]) fun h => nomatch h.1

/-- An element that gives a name a value. -/
def IsPair (pair : Json) : Prop :=
  ∃ key value name, pairParts pair = .ok [key, value] ∧ keyName? key = some name

/-- An element without elements of its own, or a pair whose key cannot be one. -/
inductive Unpairable : Json → Prop
  | atom {value : Json} (h : value.IsAtom) : Unpairable value
  | key {key : Json} (h : key.IsContainer) (value : Json) : Unpairable (.list [key, value])

theorem not_unpairable_of_isPair (h : IsPair pair) : ¬ Unpairable pair := by
  obtain ⟨key, value, name, hparts, hname⟩ := h
  intro hunpairable
  cases hunpairable with
  | atom hatom => cases (pairParts_eq_error_iff.2 ⟨hatom, rfl⟩).symm.trans hparts
  | key hkey =>
    obtain ⟨rfl, -⟩ := List.cons.inj (Except.ok.inj hparts)
    cases (keyName?_eq_none_iff.2 hkey).symm.trans hname

/-- Only the key of a list can be a list or an object. -/
theorem unpairable_of_keyName? {key : Json} (hparts : pairParts pair = .ok [key, value])
    (hname : keyName? key = none) : Unpairable pair := by
  cases pair with
  | list items =>
    obtain rfl := Except.ok.inj hparts
    exact .key (keyName?_eq_none_iff.1 hname) value
  | str s =>
    obtain ⟨c, -, rfl⟩ := List.mem_map.1
      ((Except.ok.inj hparts).symm ▸ List.mem_cons_self : key ∈ s.toList.map fun c => _)
    cases hname
  | object fields =>
    obtain ⟨field, -, rfl⟩ := List.mem_map.1
      ((Except.ok.inj hparts).symm ▸ List.mem_cons_self : key ∈ fields.map fun field => _)
    cases hname
  | _ => cases hparts

/-- What has a wrong number of parts is no pair, but does not break the reader. -/
theorem not_isPair_of_length {parts : List Json} (hparts : pairParts pair = .ok parts)
    (h : parts.length ≠ 2) : ¬ IsPair pair ∧ ¬ Unpairable pair := by
  refine ⟨?_, fun hunpairable => ?_⟩
  · rintro ⟨key, value, name, hpair, -⟩
    rw [Except.ok.inj (hparts.symm.trans hpair)] at h
    exact h rfl
  · cases hunpairable with
    | atom hatom => cases (pairParts_eq_error_iff.2 ⟨hatom, rfl⟩).symm.trans hparts
    | key =>
      rw [← Except.ok.inj hparts] at h
      exact h rfl

/-- What reading a pair comes to: it is read, it breaks the reader, or it has a wrong length. -/
theorem ofPairs_cons_cases (layer : Layer) (index : ℕ) (pair : Json) (pairs : List Json) :
    (IsPair pair ∧ ∃ next : Layer,
      ofPairs layer index (pair :: pairs) = ofPairs next (index + 1) pairs) ∨
    (Unpairable pair ∧ ofPairs layer index (pair :: pairs) = .error .wrongType) ∨
    (¬ IsPair pair ∧ ¬ Unpairable pair ∧
      ∃ length, ofPairs layer index (pair :: pairs) = .error (.pairLength index length)) := by
  rw [ofPairs]
  cases hparts : pairParts pair with
  | error failure =>
    obtain ⟨hatom, rfl⟩ := pairParts_eq_error_iff.1 hparts
    exact .inr (.inl ⟨.atom hatom, rfl⟩)
  | ok parts =>
    have hlength := not_isPair_of_length hparts
    match parts with
    | [key, value] =>
      cases hname : keyName? key with
      | none =>
        refine .inr (.inl ⟨unpairable_of_keyName? hparts hname, ?_⟩)
        simp [bind, Except.bind, hname]
      | some name =>
        refine .inl ⟨⟨key, value, name, hparts, hname⟩, layer.record name value, ?_⟩
        simp [bind, Except.bind, hname]
    | [] =>
      obtain ⟨hpair, hunpairable⟩ := hlength (by simp)
      exact .inr (.inr ⟨hpair, hunpairable, _, rfl⟩)
    | [part] =>
      obtain ⟨hpair, hunpairable⟩ := hlength (by simp)
      exact .inr (.inr ⟨hpair, hunpairable, _, rfl⟩)
    | first :: second :: third :: rest =>
      obtain ⟨hpair, hunpairable⟩ := hlength (by simp)
      exact .inr (.inr ⟨hpair, hunpairable, _, rfl⟩)

theorem breaks_ofPairs_iff :
    Breaks (ofPairs layer index pairs) ↔ StopsAt IsPair Unpairable pairs := by
  induction pairs generalizing layer index with
  | nil => exact iff_of_false (not_breaks_ok layer) not_stopsAt_nil
  | cons pair pairs ih =>
    rw [stopsAt_cons_iff]
    rcases ofPairs_cons_cases layer index pair pairs with
      ⟨hpair, next, h⟩ | ⟨hunpairable, h⟩ | ⟨hpair, hunpairable, length, h⟩
    · rw [h, ih, or_iff_right (not_unpairable_of_isPair hpair), and_iff_right hpair]
    · rw [h]
      exact iff_of_true (breaks_error_iff.2 rfl) (.inl hunpairable)
    · rw [h]
      refine iff_of_false (not_breaks_error rfl) ?_
      exact not_or_intro hunpairable fun hboth => hpair hboth.1

/-- What breaks the reader of a layer: a value without elements, unless it is an empty one, and a
list in which some element cannot be a pair and all before it are pairs. -/
inductive Misread : Json → Prop
  | atom {value : Json} (h : value.IsAtom) (hgiven : value.isEmptyValue = false) : Misread value
  | pairs {pairs : List Json} (h : StopsAt IsPair Unpairable pairs) : Misread (.list pairs)

/-- The first character of a text has a wrong length. -/
theorem not_stopsAt_texts (texts : List String) :
    ¬ StopsAt IsPair Unpairable (texts.map Json.str) := by
  induction texts with
  | nil => exact not_stopsAt_nil
  | cons text texts ih =>
    rw [List.map_cons, stopsAt_cons_iff]
    rintro (hunpairable | ⟨-, h⟩)
    · cases hunpairable with
      | atom hatom => cases hatom
    · exact ih h

theorem breaks_ofJson_iff : Breaks (ofJson value) ↔ Misread value := by
  unfold ofJson
  split
  next hempty =>
    refine iff_of_false (not_breaks_ok _) fun h => ?_
    cases h with
    | atom _ hgiven => cases hempty.symm.trans hgiven
    | pairs h =>
      rw [List.isEmpty_iff.1 hempty] at h
      exact not_stopsAt_nil h
  next hgiven =>
    have hgiven := eq_false_of_ne_true hgiven
    cases value with
    | object fields =>
      refine iff_of_false (not_breaks_ok _) fun h => ?_
      cases h with
      | atom hatom => cases hatom
    | list items =>
      refine breaks_ofPairs_iff.trans ⟨.pairs, fun h => ?_⟩
      cases h with
      | atom hatom => cases hatom
      | pairs h => exact h
    | str s =>
      refine iff_of_false (fun hbreaks => ?_) fun h => ?_
      · refine not_stopsAt_texts (s.toList.map Char.toString) ?_
        rw [List.map_map]
        exact breaks_ofPairs_iff.1 hbreaks
      · cases h with
        | atom hatom => cases hatom
    | null => cases hgiven
    | bool b => exact iff_of_true (breaks_error_iff.2 rfl) (.atom (.bool b) hgiven)
    | int n => exact iff_of_true (breaks_error_iff.2 rfl) (.atom (.int n) hgiven)
    | float x => exact iff_of_true (breaks_error_iff.2 rfl) (.atom (.float x) hgiven)

end Layer

namespace Sheet

/-- What breaks the reader of a sheet: the value itself, or one of its two sections. -/
inductive Misread (value : Json) : Prop
  | layer (h : Layer.Misread value)
  | session {layer : Layer} (hlayer : Layer.ofJson value = .ok layer)
    (h : Layer.Misread ((layer.find? "session").getD .null))
  | detection {layer session : Layer} (hlayer : Layer.ofJson value = .ok layer)
    (hsession : Layer.ofJson ((layer.find? "session").getD .null) = .ok session)
    (h : Layer.Misread ((layer.find? "detection").getD .null))

theorem breaks_ofLayer_iff {layer : Layer} : Breaks (ofLayer layer) ↔
    Layer.Misread ((layer.find? "session").getD .null) ∨
      ∃ session, Layer.ofJson ((layer.find? "session").getD .null) = .ok session ∧
        Layer.Misread ((layer.find? "detection").getD .null) := by
  unfold ofLayer
  rw [breaks_bind_iff, Layer.breaks_ofJson_iff]
  refine or_congr_right (exists_congr fun session => and_congr_right fun _ => ?_)
  exact (breaks_bind_ok_iff fun _ => ⟨_, rfl⟩).trans Layer.breaks_ofJson_iff

theorem breaks_ofJson_iff {value : Json} : Breaks (ofJson value) ↔ Misread value := by
  unfold ofJson
  rw [breaks_bind_iff, Layer.breaks_ofJson_iff]
  constructor
  · rintro (h | ⟨layer, hlayer, h⟩)
    · exact .layer h
    · rcases breaks_ofLayer_iff.1 h with h | ⟨session, hsession, h⟩
      · exact .session hlayer h
      · exact .detection hlayer hsession h
  · intro h
    cases h with
    | layer h => exact .inl h
    | session hlayer h => exact .inr ⟨_, hlayer, breaks_ofLayer_iff.2 (.inl h)⟩
    | detection hlayer hsession h =>
      exact .inr ⟨_, hlayer, breaks_ofLayer_iff.2 (.inr ⟨_, hsession, h⟩)⟩

end Sheet
end RoleMining
