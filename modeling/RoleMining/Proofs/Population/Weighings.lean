import RoleMining.Proofs.Population.Numerals
import RoleMining.Proofs.Results

/-!
# What a column of weights amounts to

The weights of a column are read as integers if all its cells hold some, and otherwise in double
precision. Either way a plain column is taken as it stands.
-/
namespace RoleMining.Assignments

/-- The weight that a cell gives: fractions are cut off, and a cell that says nothing counts one. -/
def Weighing.amount : Weighing → ℤ
  | .nothing => 1
  | .whole n _ => n
  | .fraction x => x.truncate

def Weighing.IsWhole : Weighing → Prop
  | .whole _ _ => True
  | _ => False

/-- The weight is finite and a signed machine word. -/
def Weighing.IsWord : Weighing → Prop
  | .nothing => True
  | .whole n _ => Word.isSigned n = true
  | .fraction x => x.isFinite = true ∧ Word.isSigned x.truncate = true

/-- A cell that is too short for its integer to be rounded in double precision. -/
def IsShort (cell : String) : Prop :=
  (cell.toList.filter Cell.isDigit).length ≤ Cell.maxTaken ∧
    (weighing cell).amount.natAbs < 2 ^ 53

/-- All weights of a column are words, and integers are short unless they fill the column. -/
structure IsPlain (cells : List String) : Prop where
  isWord : ∀ cell ∈ cells, (weighing cell).IsWord
  isShort : (∀ cell ∈ cells, (weighing cell).IsWhole) ∨
    ∀ cell ∈ cells, (weighing cell).IsWhole → IsShort cell

instance : DecidablePred Weighing.IsWhole
  | .whole _ _ => .isTrue trivial
  | .nothing => .isFalse not_false
  | .fraction _ => .isFalse not_false

instance : DecidablePred Weighing.IsWord
  | .nothing => .isTrue trivial
  | .whole n _ => inferInstanceAs (Decidable (Word.isSigned n = true))
  | .fraction x => inferInstanceAs (Decidable (x.isFinite = true ∧ Word.isSigned x.truncate = true))

instance : DecidablePred IsShort := fun _ => inferInstanceAs (Decidable (_ ∧ _))

theorem isPlain_iff {cells : List String} : IsPlain cells ↔
    (∀ cell ∈ cells, (weighing cell).IsWord) ∧ ((∀ cell ∈ cells, (weighing cell).IsWhole) ∨
      ∀ cell ∈ cells, (weighing cell).IsWhole → IsShort cell) :=
  ⟨fun h => ⟨h.isWord, h.isShort⟩, fun h => ⟨h.1, h.2⟩⟩

instance : DecidablePred IsPlain := fun _ => decidable_of_iff' _ isPlain_iff

variable {cells cells' : List String} {cell : String} {n : ℤ} {x : Binary64}

theorem IsPlain.subset (h : IsPlain cells) (hsub : cells' ⊆ cells) : IsPlain cells' where
  isWord _ hcell := h.isWord _ (hsub hcell)
  isShort := h.isShort.imp (fun hwhole _ hcell => hwhole _ (hsub hcell))
    fun hshort _ hcell => hshort _ (hsub hcell)

theorem exists_numeral_of_weighing (h : weighing cell = .whole n x) :
    ∃ v, Cell.numeral? cell = some v ∧ v.isWhole = true ∧ Text.integer? cell = some n ∧
      v.value = x := by
  unfold weighing at h
  split at h
  next => cases h
  next =>
    split at h
    next v hnumeral =>
      split at h
      next hwhole hinteger =>
        cases h
        exact ⟨v, hnumeral, hwhole, hinteger, rfl⟩
      next => cases h
    next =>
      cases hinfinity : Cell.infinity? cell <;> rw [hinfinity] at h <;> cases h

/-! ### Integers -/

theorem mapM_eq_some_map {α β : Type} {f : α → Option β} {g : α → β} {xs : List α}
    (h : ∀ x ∈ xs, f x = some (g x)) : xs.mapM f = some (xs.map g) := by
  induction xs with
  | nil => rfl
  | cons x xs ih =>
    rw [List.mapM_cons, h x List.mem_cons_self, ih fun y hy => h y (List.mem_cons_of_mem _ hy)]
    rfl

theorem Weighing.IsWord.bounds {w : Weighing} (hword : w.IsWord) (hwhole : w.IsWhole) :
    Word.least ≤ w.amount ∧ w.amount < Word.signedEnd := by
  cases w with
  | whole =>
    rw [IsWord, Word.isSigned, Bool.and_eq_true, decide_eq_true_eq, decide_eq_true_eq] at hword
    exact hword
  | nothing => exact hwhole.elim
  | fraction => exact hwhole.elim

/-- Signed words are among those that are read, and stay what they are. -/
theorem wholeWeights?_of_isWhole {column : List Weighing} (hword : ∀ w ∈ column, w.IsWord)
    (hwhole : ∀ w ∈ column, w.IsWhole) :
    wholeWeights? column = some (column.map Weighing.amount) := by
  have hsmall : (column.map Weighing.amount).any (fun n => decide (Word.signedEnd ≤ n)) =
      false := by
    rw [List.any_eq_false, List.forall_mem_map]
    intro w hw
    rw [decide_eq_true_eq, not_le]
    exact ((hword w hw).bounds (hwhole w hw)).2
  have hkept : (column.map Weighing.amount).map Word.signed = column.map Weighing.amount := by
    rw [List.map_map]
    refine List.map_congr_left fun w hw => ?_
    obtain ⟨hlow, hhigh⟩ := (hword w hw).bounds (hwhole w hw)
    exact Int.bmod_eq_of_le (le_trans (by decide) hlow) (hhigh.trans_le (by decide))
  rw [wholeWeights?, mapM_eq_some_map (g := Weighing.amount)]
  · simp only [Option.bind_eq_bind, Option.bind_some, hsmall, Bool.false_and, Bool.false_eq_true,
      if_false, hkept]
  · intro w hw
    obtain ⟨hlow, hhigh⟩ := (hword w hw).bounds (hwhole w hw)
    have hunsigned : w.amount < Word.unsignedEnd := hhigh.trans (by decide)
    cases w with
    | whole => exact if_pos (by simpa using ⟨hlow, hunsigned⟩)
    | nothing => exact (hwhole _ hw).elim
    | fraction => exact (hwhole _ hw).elim

theorem isWhole_of_wholeWeights? {column : List Weighing} {weights : List ℤ}
    (h : wholeWeights? column = some weights) : ∀ w ∈ column, w.IsWhole := by
  obtain ⟨whole, hread, -⟩ := Option.bind_eq_some_iff.1 h
  clear h
  induction column generalizing whole with
  | nil => simp
  | cons w column ih =>
    rw [List.mapM_cons] at hread
    obtain ⟨n, hn, hrest⟩ := Option.bind_eq_some_iff.1 hread
    obtain ⟨whole', hwhole', -⟩ := Option.bind_eq_some_iff.1 hrest
    intro w' hw'
    rcases List.mem_cons.1 hw' with rfl | hw'
    · cases w' with
      | whole => trivial
      | nothing => cases hn
      | fraction => cases hn
    · exact ih whole' hwhole' w' hw'

/-! ### Double precision -/

theorem truncate_eq_of_value (h : x.value = n) : x.truncate = n := by
  rw [Binary64.truncate, h, Rat.num_intCast, Rat.den_intCast, Nat.div_one]
  split_ifs <;> omega

theorem wordOfDouble_eq (hfinite : x.isFinite = true) (hword : Word.isSigned x.truncate = true) :
    wordOfDouble x = .ok x.truncate := by
  rw [wordOfDouble, if_pos hfinite]
  exact congrArg Except.ok (if_pos hword)

theorem roundedWeight_eq (hword : (weighing cell).IsWord)
    (hshort : (weighing cell).IsWhole → IsShort cell) :
    roundedWeight (weighing cell) = .ok (weighing cell).amount := by
  cases h : weighing cell with
  | nothing => rfl
  | fraction x =>
    rw [h] at hword
    exact wordOfDouble_eq hword.1 hword.2
  | whole n x =>
    rw [IsShort, h] at hshort
    rw [h] at hword
    obtain ⟨hdigits, hsmall⟩ := hshort trivial
    obtain ⟨v, hnumeral, hwhole, hinteger, rfl⟩ := exists_numeral_of_weighing h
    obtain ⟨hfinite, hvalue⟩ := Cell.value_eq_of_small hnumeral hwhole hinteger hdigits hsmall
    have htruncate := truncate_eq_of_value hvalue
    have hword : Word.isSigned v.value.truncate = true := htruncate ▸ hword
    rw [roundedWeight, wordOfDouble_eq hfinite hword, htruncate]
    rfl

theorem columnWeights_eq (h : IsPlain cells) :
    columnWeights cells = .ok (cells.map fun cell => (weighing cell).amount) := by
  unfold columnWeights
  dsimp only
  cases hread : wholeWeights? (cells.map weighing) with
  | some weights =>
    have hwhole := isWhole_of_wholeWeights? hread
    have hword : ∀ w ∈ cells.map weighing, w.IsWord := by
      simpa using h.isWord
    rw [wholeWeights?_of_isWhole hword hwhole] at hread
    rw [← Option.some.inj hread, List.map_map]
    rfl
  | none =>
    have hshort : ∀ cell ∈ cells, (weighing cell).IsWhole → IsShort cell := by
      refine h.isShort.resolve_left fun hwhole => ?_
      rw [wholeWeights?_of_isWhole (by simpa using h.isWord) (by simpa using hwhole)] at hread
      cases hread
    have hrounded : ∀ w ∈ cells.map weighing, roundedWeight w = .ok w.amount :=
      List.forall_mem_map.2 fun cell hcell =>
        roundedWeight_eq (h.isWord cell hcell) (hshort cell hcell)
    exact (mapM_eq_ok_map hrounded).trans (congrArg Except.ok List.map_map)

end RoleMining.Assignments
