import Mathlib.Data.List.TakeWhile
import RoleMining.Population.Identities
import RoleMining.Proofs.Population.Numerals

/-!
# Columns that are read as they are written

A column whose cells are all integers, numbers or truth values is read as such and shown in the way
of these. It is shown as it is written if some cell is neither, or if its integers are written the
way they are shown. Missing cells are shown as a text of their own.
-/
namespace RoleMining.Cell

variable {cell : String} {cells : List String} {n : ℤ}

/-- A cell that spells an integer, of any size, or another number. -/
def IsNumeric (cell : String) : Prop :=
  (∃ negative digits, Spells cell negative digits) ∨ (double? cell).isSome = true

/-! ### Words -/

theorem spells_of_wordOf {limit : ℕ} {signed : ℕ → ℤ}
    (h : wordOf limit (takeSign (cell.toList.dropWhile isSpace)).2 signed = .value n) :
    ∃ negative digits, Spells cell negative digits := by
  unfold wordOf at h
  dsimp only at h
  split_ifs at h with hempty hlarge hafter
  exact ⟨_, _, spells_takeSign (by simpa using hempty) (List.all_eq_true.1 hafter)⟩

theorem isNumeric_of_signedWord (h : signedWord cell = .value n) : IsNumeric cell := by
  unfold signedWord at h
  dsimp only at h
  split_ifs at h <;> exact .inl (spells_of_wordOf h)

theorem isNumeric_of_unsignedWord (h : unsignedWord cell = .value n) : IsNumeric cell :=
  .inl (spells_of_wordOf h)

/-- A cell without digits is no number, unless it names one. -/
theorem not_isNumeric_of_no_digit (hdigits : cell.toList.filter isDigit = [])
    (hdouble : (double? cell).isSome = false) : ¬ IsNumeric cell := by
  rintro (⟨negative, digits, hspells⟩ | hsome)
  · have hlength := hspells.length_le
    rw [hdigits, List.length_nil, Nat.le_zero, List.length_eq_zero_iff] at hlength
    exact hspells.ne_nil hlength
  · cases hdouble.symm.trans hsome

theorem firstMisfit_eq_none_iff {read : String → Word} :
    firstMisfit read cells = none ↔ ∀ cell ∈ cells, ∃ n, read cell = .value n := by
  induction cells with
  | nil => simp [firstMisfit]
  | cons cell cells ih =>
    rw [firstMisfit, List.forall_mem_cons]
    cases hread : read cell <;> simp [ih]

theorem exists_of_firstMisfit {read : String → Word} {misfit : Word}
    (h : firstMisfit read cells = some misfit) :
    (∀ n, misfit ≠ .value n) ∧ ∃ cell ∈ cells, read cell = misfit := by
  induction cells with
  | nil => cases h
  | cons cell cells ih =>
    rw [firstMisfit] at h
    split at h
    next =>
      obtain ⟨hmisfit, word, hword, hread⟩ := ih h
      exact ⟨hmisfit, word, List.mem_cons_of_mem cell hword, hread⟩
    next hvalue =>
      cases h
      exact ⟨hvalue, cell, List.mem_cons_self, rfl⟩

/-! ### Columns with words -/

/-- Of the cells that are not missing some is no number, and some is no truth value. -/
structure HasWords (cells : List String) : Prop where
  number : ∃ cell ∈ cells.filterMap Table.present?, ¬ IsNumeric cell
  truth : ∃ cell ∈ cells.filterMap Table.present?, truth? cell = none

theorem mem_given_iff : cell ∈ cells.filterMap Table.present? ↔
    cell ∈ cells ∧ Table.isMissing cell = false := by
  rw [List.mem_filterMap]
  constructor
  · rintro ⟨word, hword, hpresent⟩
    rw [Table.present?] at hpresent
    split_ifs at hpresent with hmissing
    cases hpresent
    exact ⟨hword, Bool.eq_false_of_not_eq_true hmissing⟩
  · rintro ⟨hcell, hpresent⟩
    exact ⟨cell, hcell, by rw [Table.present?, hpresent]; rfl⟩

theorem given_of_present (hpresent : ∀ cell ∈ cells, Table.isMissing cell = false) :
    cells.filterMap Table.present? = cells := by
  have hsome : ∀ cell ∈ cells, Table.present? cell = some cell := fun cell hcell => by
    rw [Table.present?, hpresent cell hcell]
    rfl
  rw [List.filterMap_congr hsome, List.filterMap_some]

theorem texts_of_present (hpresent : ∀ cell ∈ cells, Table.isMissing cell = false) :
    texts cells = cells := by
  refine (List.map_congr_left fun cell hcell => ?_).trans (List.map_id cells)
  rw [shownOr, hpresent cell hcell]
  rfl

section Words

variable (h : HasWords cells)
include h

theorem inferWider_of_hasWords : inferWider cells = texts cells := by
  obtain ⟨word, hword, hnumeric⟩ := h.number
  obtain ⟨other, hother, hnone⟩ := h.truth
  have hnumbers : ((cells.filterMap Table.present?).all fun cell => (double? cell).isSome) =
      false :=
    List.all_eq_false.2 ⟨word, hword, fun hsome => hnumeric (.inr hsome)⟩
  have htruths : ((cells.filterMap Table.present?).all fun cell => (truth? cell).isSome) = false :=
    List.all_eq_false.2 ⟨other, hother, by simp [hnone]⟩
  simp only [inferWider, hnumbers, htruths, Bool.false_eq_true, if_false]

theorem inferUnsigned_of_hasWords (hpresent : ∀ cell ∈ cells, Table.isMissing cell = false) :
    inferUnsigned cells = texts cells := by
  unfold inferUnsigned
  dsimp only
  split
  next => rfl
  next => exact inferWider_of_hasWords h
  next hwords =>
    split_ifs with hlarge hnegative
    · exact (texts_of_present hpresent).symm
    · rfl
    · -- without a minus all cells were read, and the one that is no number cannot have been
      obtain ⟨word, hword, hnumeric⟩ := h.number
      have hplain : isNegativeText word = false := by
        simpa using List.any_eq_false.1 (Bool.eq_false_of_not_eq_true hnegative) word hword
      have hkept : word ∈
          (cells.filterMap Table.present?).filter fun cell => !isNegativeText cell :=
        List.mem_filter.2 ⟨hword, by simp [hplain]⟩
      obtain ⟨n, hn⟩ := firstMisfit_eq_none_iff.1 hwords word hkept
      exact absurd (isNumeric_of_unsignedWord hn) hnumeric

/-- Words are not changed by the numbers and truth values beside them, unless an integer that is too
large stands beside missing cells. -/
theorem infer_of_hasWords (hplain : (∀ cell ∈ cells, Table.isMissing cell = false) ∨
    ∀ cell ∈ cells, signedWord cell ≠ .tooLarge) : infer cells = texts cells := by
  unfold infer
  dsimp only
  split
  next hlarge =>
    obtain ⟨-, cell, hcell, hread⟩ := exists_of_firstMisfit hlarge
    exact inferUnsigned_of_hasWords h
      (hplain.resolve_right fun hsmall => hsmall cell (mem_given_iff.1 hcell).1 hread)
  next => exact inferWider_of_hasWords h
  next hwords =>
    obtain ⟨word, hword, hnumeric⟩ := h.number
    obtain ⟨n, hn⟩ := firstMisfit_eq_none_iff.1 hwords word hword
    exact absurd (isNumeric_of_signedWord hn) hnumeric

end Words

/-! ### Integers as they are shown -/

theorem isDigit_of_mem_toDigits {m : ℕ} {c : Char} (hc : c ∈ Nat.toDigits 10 m) :
    isDigit c = true :=
  Nat.isDigit_of_mem_toDigits (by decide) (by decide) hc

theorem continued_toDigits (m : ℕ) : continued 0 (Nat.toDigits 10 m) = m := by
  rw [continued, List.foldl_map]
  exact Nat.ofDigitChars_toDigits (by decide) (by decide)

theorem wordOf_toDigits (limit m : ℕ) (signed : ℕ → ℤ) :
    wordOf limit (Nat.toDigits 10 m) signed = .value (signed m) ∨
      wordOf limit (Nat.toDigits 10 m) signed = .tooLarge := by
  have hdigits : ∀ c ∈ Nat.toDigits 10 m, isDigit c = true := fun c => isDigit_of_mem_toDigits
  have hsize : Text.ofDigits ((Nat.toDigits 10 m).map digitOf) = m := continued_toDigits m
  unfold wordOf
  simp only [List.takeWhile_eq_self_iff.2 hdigits, List.dropWhile_eq_nil_iff.2 hdigits, hsize,
    List.isEmpty_iff, Nat.toDigits_ne_nil, if_false, List.all_nil, if_true]
  exact (ite_eq_or_eq _ _ _).symm

/-- Digits have neither a space nor a sign before them. -/
theorem takeSign_toDigits (m : ℕ) :
    takeSign ((Nat.toDigits 10 m).dropWhile isSpace) = (false, Nat.toDigits 10 m) := by
  obtain ⟨c, rest, hdigits⟩ := List.exists_cons_of_ne_nil (Nat.toDigits_ne_nil (n := m) (b := 10))
  have hc : isDigit c = true := isDigit_of_mem_toDigits (hdigits ▸ List.mem_cons_self)
  have hspace : ¬ isSpace c = true := fun hspace => by
    have hdigit := toNat_of_isDigit hc
    have hblank := toNat_of_isSpace hspace
    omega
  rw [hdigits, List.dropWhile_cons_of_neg hspace]
  unfold takeSign
  split
  next he =>
    cases he
    exact absurd hc (by decide)
  next he =>
    cases he
    exact absurd hc (by decide)
  next => rfl

theorem takeSign_ofInt (n : ℤ) : takeSign ((Text.ofInt n).toList.dropWhile isSpace) =
    (decide (n < 0), Nat.toDigits 10 n.natAbs) := by
  rw [Text.ofInt, String.toList_ofList, Text.decimal]
  split_ifs with hnegative
  · rw [decide_eq_true hnegative]
    rfl
  · rw [decide_eq_false hnegative, takeSign_toDigits]

theorem isNegativeText_ofInt (n : ℤ) : isNegativeText (Text.ofInt n) = decide (n < 0) :=
  congrArg Prod.fst (takeSign_ofInt n)

theorem signedWord_ofInt (n : ℤ) : signedWord (Text.ofInt n) = .value n ∨
    signedWord (Text.ofInt n) = .tooLarge := by
  unfold signedWord
  simp only [takeSign_ofInt, decide_eq_true_eq]
  split_ifs with hnegative
  · have hsize : -(n.natAbs : ℤ) = n := by omega
    simpa only [hsize] using wordOf_toDigits _ n.natAbs fun m => -(m : ℤ)
  · have hsize : (n.natAbs : ℤ) = n := by omega
    simpa only [hsize] using wordOf_toDigits _ n.natAbs fun m => (m : ℤ)

theorem unsignedWord_ofInt (hn : 0 ≤ n) : unsignedWord (Text.ofInt n) = .value n ∨
    unsignedWord (Text.ofInt n) = .tooLarge := by
  have hsize : (n.natAbs : ℤ) = n := by omega
  unfold unsignedWord
  simpa only [takeSign_ofInt, hsize] using wordOf_toDigits _ n.natAbs fun m => (m : ℤ)

theorem wordText_ofInt {read : String → Word}
    (h : read (Text.ofInt n) = .value n ∨ read (Text.ofInt n) = .tooLarge) :
    wordText read (Text.ofInt n) = Text.ofInt n := by
  rw [wordText]
  rcases h with h | h <;> rw [h]

/-- No mark of a missing value ends with a digit. -/
theorem isMissing_ofInt (n : ℤ) : Table.isMissing (Text.ofInt n) = false := by
  have hmarks : ∀ mark ∈ Table.missingMarks,
      (mark.toList.getLast?.all fun c => !isDigit c) = true := by decide +kernel
  have hlast : (Text.ofInt n).toList.getLast? =
      some ((Nat.toDigits 10 n.natAbs).getLast Nat.toDigits_ne_nil) := by
    rw [Text.ofInt, String.toList_ofList, Text.decimal]
    split_ifs
    · exact (List.getLast?_eq_some_getLast (List.cons_ne_nil _ _)).trans
        (congrArg some (List.getLast_cons Nat.toDigits_ne_nil))
    · exact List.getLast?_eq_some_getLast Nat.toDigits_ne_nil
  rw [Table.isMissing, Bool.eq_false_iff, ne_eq, List.contains_iff_mem]
  intro hmark
  have hdigit := isDigit_of_mem_toDigits (List.getLast_mem (Nat.toDigits_ne_nil (n := n.natAbs)))
  have hother := hmarks _ hmark
  rw [hlast, Option.all_some, hdigit] at hother
  cases hother

section Integers

variable (h : ∀ cell ∈ cells, ∃ n, cell = Text.ofInt n)
include h

theorem present_of_integers : ∀ cell ∈ cells, Table.isMissing cell = false := by
  intro cell hcell
  obtain ⟨n, rfl⟩ := h cell hcell
  exact isMissing_ofInt n

theorem inferUnsigned_of_integers : inferUnsigned cells = cells := by
  have hread : ∀ cell ∈ cells, isNegativeText cell = false →
      ∃ n, cell = Text.ofInt n ∧ (unsignedWord cell = .value n ∨ unsignedWord cell = .tooLarge) := by
    intro cell hcell hpositive
    obtain ⟨n, rfl⟩ := h cell hcell
    rw [isNegativeText_ofInt, decide_eq_false_iff_not, not_lt] at hpositive
    exact ⟨n, rfl, unsignedWord_ofInt hpositive⟩
  unfold inferUnsigned
  simp only [given_of_present (present_of_integers h), texts_of_present (present_of_integers h)]
  split
  next => rfl
  next misfit hsmall hmisfit =>
    obtain ⟨hvalue, cell, hcell, rfl⟩ := exists_of_firstMisfit hmisfit
    obtain ⟨hmem, hpositive⟩ := List.mem_filter.1 hcell
    obtain ⟨n, -, hn⟩ := hread cell hmem (by simpa using hpositive)
    exact (hn.elim (hvalue n) hsmall).elim
  next =>
    split_ifs with hlarge hnegative
    · rfl
    · rfl
    · refine (List.map_congr_left fun cell hcell => ?_).trans (List.map_id cells)
      have hpositive := List.any_eq_false.1 (Bool.eq_false_of_not_eq_true hnegative) cell hcell
      obtain ⟨n, rfl, hn⟩ := hread cell hcell (Bool.eq_false_of_not_eq_true hpositive)
      exact wordText_ofInt hn

/-- Integers of any size are shown as they are written. -/
theorem infer_of_integers : infer cells = cells := by
  unfold infer
  simp only [given_of_present (present_of_integers h), lt_irrefl, if_false]
  split
  next => exact inferUnsigned_of_integers h
  next misfit hsmall hmisfit =>
    obtain ⟨hvalue, cell, hcell, rfl⟩ := exists_of_firstMisfit hmisfit
    obtain ⟨n, rfl⟩ := h cell hcell
    exact ((signedWord_ofInt n).elim (hvalue n) hsmall).elim
  next =>
    refine (List.map_congr_left fun cell hcell => ?_).trans (List.map_id cells)
    obtain ⟨n, rfl⟩ := h cell hcell
    exact wordText_ofInt (signedWord_ofInt n)

end Integers

/-- No cell is missing, and the cells have words or are all integers as they are shown. -/
structure IsLiteral (cells : List String) : Prop where
  isMissing_eq_false : ∀ cell ∈ cells, Table.isMissing cell = false
  isPlain : HasWords cells ∨
    ∀ cell ∈ cells, ∃ n, cell = Text.ofInt n

theorem infer_of_isLiteral (h : IsLiteral cells) : infer cells = texts cells := by
  rcases h.isPlain with hwords | hintegers
  · exact infer_of_hasWords hwords (.inl h.isMissing_eq_false)
  · exact (infer_of_integers hintegers).trans (texts_of_present h.isMissing_eq_false).symm

end RoleMining.Cell
