import RoleMining.Proofs.Json.Numerals
import RoleMining.Proofs.Json.Strings
import RoleMining.Proofs.Ledger

/-!
# Values that are written and read

The reader inverts the writer: in either layout the text of a value is read as the value. What
stands between the items is skipped, and what follows an item ends a numeral. The induction is on
the value, with a lemma for the items of a list and one for the fields of an object; the text that
is left bounds how deep the reader may go.
-/
namespace RoleMining.Json

/-- No object in the value gives a name twice. -/
def namesApart : Json → Bool :=
  everywhere fun
    | .object fields => (fields.map Prod.fst).Nodup
    | _ => true

/-! ### What stands between the items -/

variable {layout : Layout} {depth fuel : ℕ} {cs rest : List Char}

theorem skipSpace_append {spaces : List Char} (hspaces : ∀ c ∈ spaces, isSpace c = true)
    (cs : List Char) : skipSpace (spaces ++ cs) = skipSpace cs :=
  List.dropWhile_append_of_pos hspaces

theorem skipSpace_cons {c : Char} (hc : isSpace c = false) (rest : List Char) :
    skipSpace (c :: rest) = c :: rest :=
  List.dropWhile_cons_of_neg (by simp [hc])

theorem isSpace_of_mem_newline {c : Char} (hc : c ∈ layout.newline depth) : isSpace c = true := by
  cases layout with
  | indented =>
    rcases List.mem_cons.1 hc with rfl | hc
    · rfl
    · rw [List.eq_of_mem_replicate hc]
      rfl
  | compact => cases hc

theorem skipSpace_newline (cs : List Char) :
    skipSpace (layout.newline depth ++ cs) = skipSpace cs :=
  skipSpace_append (fun _ => isSpace_of_mem_newline) cs

theorem exists_comma (layout : Layout) (depth : ℕ) : ∃ spaces, layout.comma depth = ',' :: spaces ∧
    ∀ c ∈ spaces, isSpace c = true := by
  cases layout with
  | indented => exact ⟨_, rfl, fun _ => isSpace_of_mem_newline⟩
  | compact => exact ⟨_, rfl, by simp [isSpace]⟩

theorem ended_cons {c : Char} (hc : c = ',' ∨ c = ']' ∨ c = '\x7d' ∨ c = '\n')
    (rest : List Char) : Ended (c :: rest) := by
  intro d hd
  cases hd
  rcases hc with rfl | rfl | rfl | rfl <;> decide

/-- A closing bracket ends what stands before it, with or without a line break. -/
theorem ended_newline {c : Char} (hc : c = ']' ∨ c = '\x7d') (rest : List Char) :
    Ended (layout.newline depth ++ c :: rest) := by
  cases layout with
  | indented => exact ended_cons (.inr (.inr (.inr rfl))) _
  | compact => exact ended_cons (.inr (hc.imp_right .inl)) _

theorem ended_comma (cs : List Char) : Ended (layout.comma depth ++ cs) := by
  obtain ⟨spaces, hcomma, -⟩ := exists_comma layout depth
  rw [hcomma]
  exact ended_cons (.inl rfl) _

/-! ### Scalars -/

theorem head_of_readNumber? {r : Json × List Char} (h : readNumber? cs = some r) :
    ∃ c tail, cs = c :: tail ∧ (c = '-' ∨ isDigit c = true) := by
  unfold readNumber? at h
  split at h
  next tail => exact ⟨'-', tail, rfl, .inl rfl⟩
  next =>
    obtain ⟨c, tail, rfl, hc⟩ := exists_digit_of_readMagnitude? h
    exact ⟨c, tail, rfl, .inr hc⟩

theorem after?_of_ne {w c : Char} (h : w ≠ c) (word rest : List Char) :
    after? (w :: word) (c :: rest) = none :=
  if_neg (by simpa using h)

/-- A number is read where one stands. -/
theorem readValue?_of_readNumber? {r : Json × List Char} (h : readNumber? cs = some r)
    (fuel : ℕ) : readValue? (fuel + 1) cs = some r := by
  obtain ⟨c, tail, rfl, hc⟩ := head_of_readNumber? h
  have hne (other : Char) (hminus : other ≠ '-') (hother : isDigit other = false) : c ≠ other := by
    rcases hc with rfl | hc
    · exact hminus.symm
    · exact ne_of_isDigit hc hother
  have hword : readWord? (c :: tail) = none := by
    unfold readWord?
    rw [show "null".toList = 'n' :: "ull".toList from rfl,
      show "true".toList = 't' :: "rue".toList from rfl,
      show "false".toList = 'f' :: "alse".toList from rfl,
      show "NaN".toList = 'N' :: "aN".toList from rfl,
      show "Infinity".toList = 'I' :: "nfinity".toList from rfl,
      after?_of_ne (hne 'n' (by decide) rfl).symm, after?_of_ne (hne 't' (by decide) rfl).symm,
      after?_of_ne (hne 'f' (by decide) rfl).symm, after?_of_ne (hne 'N' (by decide) rfl).symm,
      after?_of_ne (hne 'I' (by decide) rfl).symm]
    rfl
  rw [readValue?, if_neg (by simpa using hne '"' (by decide) rfl),
    if_neg (by simpa using hne '[' (by decide) rfl),
    if_neg (by simpa using hne '\x7b' (by decide) rfl), hword]
  exact h

theorem readValue?_writeFloat (x : Binary64) (hrest : Ended rest) :
    readValue? (fuel + 1) (writeFloat x ++ rest) = some (.float x, rest) := by
  cases x with
  | nan => rfl
  | infinite negative => cases negative <;> rfl
  | finite => exact readValue?_of_readNumber? (readNumber?_toText rfl hrest) fuel

/-- Where a value is read, neither a space nor a closing bracket stands. -/
theorem head_of_readValue? {r : Json × List Char} (h : readValue? fuel cs = some r) :
    ∃ c tail, cs = c :: tail ∧ isSpace c = false ∧ c ≠ ']' := by
  cases fuel with
  | zero => cases h
  | succ fuel =>
    cases cs with
    | nil => cases h
    | cons c tail =>
      have hnone (other : Char) (hother : readValue? (fuel + 1) (other :: tail) = none) :
          c ≠ other := by
        rintro rfl
        cases hother.symm.trans h
      refine ⟨c, tail, rfl, ?_, hnone ']' rfl⟩
      simp [isSpace, hnone ' ' rfl, hnone '\t' rfl, hnone '\n' rfl, hnone '\r' rfl]

/-! ### Lists and objects -/

/-- What can be written, with no name twice in an object. -/
structure IsReadable (value : Json) : Prop where
  isWritable : value.isWritable = true
  namesApart : value.namesApart = true

theorem IsReadable.length_le {n : ℤ} (h : (Json.int n).IsReadable) :
    (Nat.toDigits 10 n.natAbs).length ≤ Text.maxNumeralDigits :=
  of_decide_eq_true h.isWritable

/-- The items of a list, or the values of the fields of an object. -/
theorem everywhereItems_iff {test : Json → Bool} {items : List Json} :
    everywhereItems test items = true ↔ ∀ item ∈ items, everywhere test item = true := by
  induction items with
  | nil => simp [everywhereItems]
  | cons item items ih => simp [everywhereItems, ih]

theorem everywhereFields_iff {test : Json → Bool} {fields : List (String × Json)} :
    everywhereFields test fields = true ↔ ∀ field ∈ fields, everywhere test field.2 = true := by
  induction fields with
  | nil => simp [everywhereFields]
  | cons field fields ih => simp [everywhereFields, ih]

theorem isWritable_list_iff {items : List Json} :
    (Json.list items).isWritable = true ↔ ∀ item ∈ items, item.isWritable = true :=
  everywhereItems_iff

theorem isWritable_object_iff {fields : List (String × Json)} :
    (Json.object fields).isWritable = true ↔ ∀ field ∈ fields, field.2.isWritable = true :=
  everywhereFields_iff

theorem namesApart_list_iff {items : List Json} :
    (Json.list items).namesApart = true ↔ ∀ item ∈ items, item.namesApart = true :=
  everywhereItems_iff

theorem namesApart_object_iff {fields : List (String × Json)} :
    (Json.object fields).namesApart = true ↔
      (fields.map Prod.fst).Nodup ∧ ∀ field ∈ fields, field.2.namesApart = true := by
  rw [namesApart, everywhere, Bool.and_eq_true, decide_eq_true_eq, everywhereFields_iff]

theorem IsReadable.of_mem_list {items : List Json} (h : (Json.list items).IsReadable) :
    ∀ item ∈ items, item.IsReadable := fun item hitem =>
  ⟨isWritable_list_iff.1 h.isWritable item hitem, namesApart_list_iff.1 h.namesApart item hitem⟩

theorem IsReadable.of_mem_object {fields : List (String × Json)}
    (h : (Json.object fields).IsReadable) : ∀ field ∈ fields, field.2.IsReadable :=
  fun field hfield => ⟨isWritable_object_iff.1 h.isWritable field hfield,
    (namesApart_object_iff.1 h.namesApart).2 field hfield⟩

/-- The items of a list as the reader finds them, with no comma before the first. -/
def itemsText (layout : Layout) (depth : ℕ) : List Json → List Char
  | [] => []
  | item :: rest => write layout depth item ++ writeItems layout depth rest

def fieldsText (layout : Layout) (depth : ℕ) : List (String × Json) → List Char
  | [] => []
  | (name, value) :: rest => writeString name ++
      ':' :: ' ' :: (write layout depth value ++ writeFields layout depth rest)

theorem write_list (item : Json) (items : List Json) : write layout depth (.list (item :: items)) =
    '[' :: (layout.newline (depth + 1) ++ (itemsText layout (depth + 1) (item :: items) ++
      (layout.newline depth ++ [']']))) := by
  simp only [write, itemsText, List.append_assoc]

theorem writeItems_cons (item : Json) (items : List Json) :
    writeItems layout depth (item :: items) =
      layout.comma depth ++ itemsText layout depth (item :: items) := by
  simp only [writeItems, itemsText, List.append_assoc]

theorem write_object (field : String × Json) (fields : List (String × Json)) :
    write layout depth (.object (field :: fields)) =
      '\x7b' :: (layout.newline (depth + 1) ++ (fieldsText layout (depth + 1) (field :: fields) ++
        (layout.newline depth ++ ['\x7d']))) := by
  simp only [write, fieldsText, List.append_assoc, List.cons_append]

theorem writeFields_cons (field : String × Json) (fields : List (String × Json)) :
    writeFields layout depth (field :: fields) =
      layout.comma depth ++ fieldsText layout depth (field :: fields) := by
  simp only [writeFields, fieldsText, List.append_assoc, List.cons_append]

theorem head_of_readItems? {r : List Json × List Char} (h : readItems? fuel cs = some r) :
    ∃ c tail, cs = c :: tail ∧ isSpace c = false ∧ c ≠ ']' := by
  cases fuel with
  | zero => cases h
  | succ fuel =>
    obtain ⟨read, hread, -⟩ := Option.bind_eq_some_iff.1 h
    exact head_of_readValue? hread

theorem head_of_readFields? {r : List (String × Json) × List Char}
    (h : readFields? fuel cs = some r) : ∃ tail, cs = '"' :: tail := by
  cases fuel with
  | zero => cases h
  | succ fuel =>
    unfold readFields? at h
    split at h
    next tail => exact ⟨tail, rfl⟩
    next => cases h

theorem readValue?_list {items : List Json} (h : readItems? fuel cs = some (items, rest)) :
    readValue? (fuel + 1) ('[' :: (layout.newline depth ++ cs)) = some (.list items, rest) := by
  obtain ⟨c, tail, rfl, hspace, hbracket⟩ := head_of_readItems? h
  rw [readValue?, if_neg (by decide), if_pos (by decide), skipSpace_newline, skipSpace_cons hspace]
  split
  next he => cases he; exact absurd rfl hbracket
  next => rw [h]; rfl

theorem readValue?_object {fields : List (String × Json)} (hnodup : (fields.map Prod.fst).Nodup)
    (h : readFields? fuel cs = some (fields, rest)) :
    readValue? (fuel + 1) ('\x7b' :: (layout.newline depth ++ cs)) =
      some (.object fields, rest) := by
  obtain ⟨tail, rfl⟩ := head_of_readFields? h
  rw [readValue?, if_neg (by decide), if_neg (by decide), if_pos (by decide), skipSpace_newline,
    skipSpace_cons rfl]
  split
  next he => cases he
  next =>
    rw [h]
    exact congrArg (fun entries => some (Json.object entries, rest)) (Ledger.entries_ofList hnodup)

theorem readItems?_last {item : Json} {outer : ℕ}
    (h : readValue? fuel cs = some (item, layout.newline outer ++ ']' :: rest)) :
    readItems? (fuel + 1) cs = some ([item], rest) := by
  rw [readItems?, h]
  simp only [Option.bind_eq_bind, Option.bind_some]
  rw [skipSpace_newline, skipSpace_cons rfl]
  rfl

theorem readItems?_cons {item : Json} {items : List Json} {cs' : List Char}
    (h : readValue? fuel cs = some (item, layout.comma depth ++ cs'))
    (hitems : readItems? fuel cs' = some (items, rest)) :
    readItems? (fuel + 1) cs = some (item :: items, rest) := by
  obtain ⟨spaces, hcomma, hspaces⟩ := exists_comma layout depth
  obtain ⟨c, tail, rfl, hspace, -⟩ := head_of_readItems? hitems
  have hskip : skipSpace (spaces ++ c :: tail) = c :: tail := by
    rw [skipSpace_append hspaces, skipSpace_cons hspace]
  rw [readItems?, h, hcomma]
  simp only [Option.bind_eq_bind, Option.bind_some]
  rw [List.cons_append, skipSpace_cons rfl]
  change (readItems? fuel (skipSpace (spaces ++ c :: tail))).bind _ = _
  rw [hskip, hitems]
  rfl

section Fields

variable {name : String} {value : Json}

/-- A field is read up to what follows its value. -/
theorem readFields?_name {tail : List Char} (h : readValue? fuel cs = some (value, tail)) :
    readFields? (fuel + 1) (writeString name ++ ':' :: ' ' :: cs) =
      match skipSpace tail with
      | '\x7d' :: rest => some ([(name, value)], rest)
      | ',' :: rest => (readFields? fuel (skipSpace rest)).bind fun (fields, rest) =>
        some ((name, value) :: fields, rest)
      | _ => none := by
  obtain ⟨body, hbody, hread⟩ := exists_writeString name (':' :: ' ' :: cs)
  obtain ⟨c, _, rfl, hspace, -⟩ := head_of_readValue? h
  rw [hbody, readFields?]
  simp only [Option.bind_eq_bind, hread, Option.bind_some]
  rw [skipSpace_cons rfl]
  change (readValue? fuel (skipSpace (c :: _))).bind _ = _
  rw [skipSpace_cons hspace, h]
  rfl

theorem readFields?_last {outer : ℕ}
    (h : readValue? fuel cs = some (value, layout.newline outer ++ '\x7d' :: rest)) :
    readFields? (fuel + 1) (writeString name ++ ':' :: ' ' :: cs) =
      some ([(name, value)], rest) := by
  rw [readFields?_name h, skipSpace_newline, skipSpace_cons rfl]
  rfl

theorem readFields?_cons {fields : List (String × Json)} {cs' : List Char}
    (h : readValue? fuel cs = some (value, layout.comma depth ++ cs'))
    (hfields : readFields? fuel cs' = some (fields, rest)) :
    readFields? (fuel + 1) (writeString name ++ ':' :: ' ' :: cs) =
      some ((name, value) :: fields, rest) := by
  obtain ⟨spaces, hcomma, hspaces⟩ := exists_comma layout depth
  obtain ⟨tail, rfl⟩ := head_of_readFields? hfields
  have hskip : skipSpace (spaces ++ '"' :: tail) = '"' :: tail := by
    rw [skipSpace_append hspaces, skipSpace_cons rfl]
  rw [readFields?_name h, hcomma, List.cons_append, skipSpace_cons rfl]
  change (readFields? fuel (skipSpace (spaces ++ '"' :: tail))).bind _ = _
  rw [hskip, hfields]
  rfl

end Fields

/-! ### The whole text -/

theorem length_comma_pos : 0 < (layout.comma depth).length := by
  cases layout <;> exact Nat.succ_pos _

mutual

/-- A value is read as it was written, whatever may follow it. -/
theorem readValue?_write (layout : Layout) : ∀ (value : Json) (depth fuel : ℕ) (rest : List Char),
    value.IsReadable → (write layout depth value).length < fuel → Ended rest →
      readValue? fuel (write layout depth value ++ rest) = some (value, rest)
  | _, _, 0, _, _, hfuel, _ => absurd hfuel (Nat.not_lt_zero _)
  | .null, _, _ + 1, _, _, _, _ => rfl
  | .bool true, _, _ + 1, _, _, _, _ => rfl
  | .bool false, _, _ + 1, _, _, _, _ => rfl
  | .int n, _, fuel + 1, _, hreadable, _, hrest =>
    readValue?_of_readNumber? (readNumber?_decimal hreadable.length_le hrest) fuel
  | .float x, _, _ + 1, _, _, _, hrest => readValue?_writeFloat x hrest
  | .str s, depth, fuel + 1, rest, _, _, _ => by
    obtain ⟨body, hbody, hread⟩ := exists_writeString s rest
    rw [write, hbody, readValue?, if_pos (by rfl), hread]
    rfl
  | .list [], _, _ + 1, _, _, _, _ => rfl
  | .list (item :: items), depth, fuel + 1, rest, hreadable, hfuel, _ => by
    rw [write_list] at hfuel ⊢
    simp only [List.length_cons, List.length_append, List.length_nil] at hfuel
    have hitems := readItems?_write layout (item :: items) (depth + 1) depth fuel rest
      (List.cons_ne_nil _ _) hreadable.of_mem_list (by omega)
    simp only [List.cons_append, List.append_assoc, List.nil_append]
    exact readValue?_list hitems
  | .object [], _, _ + 1, _, _, _, _ => rfl
  | .object (field :: fields), depth, fuel + 1, rest, hreadable, hfuel, _ => by
    rw [write_object] at hfuel ⊢
    simp only [List.length_cons, List.length_append, List.length_nil] at hfuel
    have hread := readFields?_write layout (field :: fields) (depth + 1) depth fuel rest
      (List.cons_ne_nil _ _) hreadable.of_mem_object (by omega)
    simp only [List.cons_append, List.append_assoc, List.nil_append]
    exact readValue?_object (namesApart_object_iff.1 hreadable.namesApart).1 hread

/-- The items of a list are read up to the closing bracket. -/
theorem readItems?_write (layout : Layout) : ∀ (items : List Json) (depth outer fuel : ℕ)
    (rest : List Char), items ≠ [] → (∀ item ∈ items, item.IsReadable) →
      (itemsText layout depth items).length + 1 < fuel →
        readItems? fuel (itemsText layout depth items ++ (layout.newline outer ++ ']' :: rest)) =
          some (items, rest)
  | _, _, _, 0, _, _, _, hfuel => absurd hfuel (Nat.not_lt_zero _)
  | [], _, _, _, _, hne, _, _ => absurd rfl hne
  | [item], depth, outer, fuel + 1, rest, _, hreadable, hfuel => by
    rw [itemsText, writeItems, List.append_nil] at hfuel ⊢
    exact readItems?_last (readValue?_write layout item depth fuel _
      (hreadable item List.mem_cons_self) (by omega) (ended_newline (.inl rfl) rest))
  | item :: next :: items, depth, outer, fuel + 1, rest, _, hreadable, hfuel => by
    have hcomma : 0 < (layout.comma depth).length := length_comma_pos
    rw [itemsText, writeItems_cons] at hfuel ⊢
    simp only [List.length_append, List.append_assoc] at hfuel ⊢
    have hitems := readItems?_write layout (next :: items) depth outer fuel rest
      (List.cons_ne_nil _ _) (fun item hitem => hreadable item (List.mem_cons_of_mem _ hitem))
      (by omega)
    exact readItems?_cons (readValue?_write layout item depth fuel _
      (hreadable item List.mem_cons_self) (by omega) (ended_comma _)) hitems

/-- The fields of an object are read up to the closing brace. -/
theorem readFields?_write (layout : Layout) : ∀ (fields : List (String × Json))
    (depth outer fuel : ℕ) (rest : List Char), fields ≠ [] →
      (∀ field ∈ fields, field.2.IsReadable) →
        (fieldsText layout depth fields).length + 1 < fuel →
          readFields? fuel
            (fieldsText layout depth fields ++ (layout.newline outer ++ '\x7d' :: rest)) =
              some (fields, rest)
  | _, _, _, 0, _, _, _, hfuel => absurd hfuel (Nat.not_lt_zero _)
  | [], _, _, _, _, hne, _, _ => absurd rfl hne
  | [(name, value)], depth, outer, fuel + 1, rest, _, hreadable, hfuel => by
    rw [fieldsText, writeFields, List.append_nil] at hfuel ⊢
    simp only [List.length_append, List.length_cons] at hfuel
    rw [List.append_assoc, List.cons_append, List.cons_append]
    exact readFields?_last (readValue?_write layout value depth fuel _
      (hreadable (name, value) List.mem_cons_self) (by omega) (ended_newline (.inr rfl) rest))
  | (name, value) :: next :: fields, depth, outer, fuel + 1, rest, _, hreadable, hfuel => by
    have hcomma : 0 < (layout.comma depth).length := length_comma_pos
    rw [fieldsText, writeFields_cons] at hfuel ⊢
    simp only [List.length_append, List.length_cons] at hfuel
    simp only [List.append_assoc, List.cons_append]
    have hfields := readFields?_write layout (next :: fields) depth outer fuel rest
      (List.cons_ne_nil _ _)
      (fun field hfield => hreadable field (List.mem_cons_of_mem _ hfield)) (by omega)
    exact readFields?_cons (readValue?_write layout value depth fuel _
      (hreadable (name, value) List.mem_cons_self) (by omega) (ended_comma _)) hfields

end

/-- The reader inverts the writer. -/
theorem parse?_render {value : Json} (h : value.IsReadable) (layout : Layout) :
    parse? (value.render layout) = some value := by
  have hread := readValue?_write layout value 0 ((write layout 0 value).length + 1) [] h
    (Nat.lt_succ_self _) (fun c hc => nomatch hc)
  rw [List.append_nil] at hread
  obtain ⟨c, tail, he, hspace, -⟩ := head_of_readValue? hread
  have hskip : skipSpace (write layout 0 value) = write layout 0 value := by
    rw [he, skipSpace_cons hspace]
  rw [parse?, render, String.toList_ofList]
  simp only [hskip, hread, Option.bind_eq_bind, Option.bind_some]
  rfl

end RoleMining.Json
