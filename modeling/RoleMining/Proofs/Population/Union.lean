import RoleMining.Proofs.Population.Columns
import RoleMining.Proofs.Population.Loading

/-!
# A population from two files

A population holds the users that are granted a role and those that the identities list, one record
for each. The identities are read with the kind of their column, so a user that both files write
alike is one user only where its column is read as it is written, and a missing identifier is listed
as a user of its own.
-/
namespace RoleMining

/-! ### Weights that can be read -/

theorem Cell.isFinite_of_numeral? {cell : String} {v : Cell.Numeral}
    (h : Cell.numeral? cell = some v) : v.value.isFinite = true := by
  unfold Cell.numeral? at h
  dsimp only at h
  rw [Option.ite_none_left_eq_some, Option.ite_none_left_eq_some] at h
  obtain ⟨-, hvalid, h⟩ := h
  cases h
  simpa using (not_or.1 fun hinvalid => hvalid (Bool.or_eq_true_iff.2 hinvalid)).1

namespace Assignments

variable {cells : List String} {cell : String} {n : ℤ} {x : Binary64}

theorem wordOfDouble_eq_ok_iff : (∃ n, wordOfDouble x = .ok n) ↔ x.isFinite = true := by
  unfold wordOfDouble
  split_ifs with hfinite <;> simp [hfinite]

/-- An integer is never read as an infinite weight. -/
theorem roundedWeight_eq_ok_iff : (∃ n, roundedWeight (weighing cell) = .ok n) ↔
    ∀ x, weighing cell = .fraction x → x.isFinite = true := by
  cases h : weighing cell with
  | nothing => simp [roundedWeight]
  | fraction x => simp [roundedWeight, wordOfDouble_eq_ok_iff]
  | whole n x =>
    obtain ⟨v, hnumeral, -, -, rfl⟩ := exists_numeral_of_weighing h
    simp [roundedWeight, wordOfDouble_eq_ok_iff, Cell.isFinite_of_numeral? hnumeral]

/-- A column of weights can be read unless one of them is infinite. -/
theorem exists_columnWeights_iff : (∃ weights, columnWeights cells = .ok weights) ↔
    ∀ cell ∈ cells, ∀ x, weighing cell = .fraction x → x.isFinite = true := by
  unfold columnWeights
  dsimp only
  split
  next weights hwhole =>
    refine iff_of_true ⟨weights, rfl⟩ fun cell hcell x hx => ?_
    have := isWhole_of_wholeWeights? hwhole _ (List.mem_map_of_mem hcell)
    rw [hx] at this
    exact this.elim
  next =>
    constructor
    · rintro ⟨weights, hweights⟩ cell hcell
      obtain ⟨n, -, hn⟩ := exists_of_mem_of_mapM_eq_ok hweights (List.mem_map_of_mem hcell)
      exact roundedWeight_eq_ok_iff.1 ⟨n, hn⟩
    · intro hfinite
      exact exists_mapM_eq_ok (List.forall_mem_map.2 fun cell hcell =>
        roundedWeight_eq_ok_iff.2 (hfinite cell hcell))

end Assignments

namespace Population

variable {t t' : Table} {a : Assignments} {path user role : String} {row : List String}

/-- There is one weight column at most, and no first row of a grant holds an infinite weight. -/
structure FiniteWeights (t : Table) : Prop where
  length_le : (t.positions weightColumn).length ≤ 1
  isFinite : ∀ i ∈ t.positions weightColumn, ∀ grant row, valueAt grant (grantsOf t) = some row →
    ∀ x, Assignments.weighing (Table.cellAt row i) = .fraction x → x.isFinite = true

theorem finiteWeights_of_no_column (h : t.positions weightColumn = []) : FiniteWeights t where
  length_le := by simp [h]
  isFinite := by simp [h]

theorem exists_weights_iff (h : Assignments.ofTable path t = .ok a) :
    (∃ weights, a.weights = .ok weights) ↔ FiniteWeights t := by
  unfold Assignments.weights
  rw [columns_of_ofTable h]
  split
  next hnone =>
    exact iff_of_true ⟨.empty, rfl⟩ (finiteWeights_of_no_column hnone)
  next i hone =>
    have hpositions : t.positions weightColumn = [i] := hone
    have hcells : (∃ given, Assignments.columnWeights
        (a.grants.values.map fun row => Table.cellAt row i) = .ok given) ↔ FiniteWeights t := by
      rw [Assignments.exists_columnWeights_iff, List.forall_mem_map]
      constructor
      · intro hfinite
        refine ⟨by simp [hpositions], fun j hj grant row hrow => ?_⟩
        obtain rfl : j = i := by simpa [hpositions] using hj
        exact hfinite row (List.mem_map_of_mem (f := Prod.snd) ((mem_entries_iff h).2 hrow))
      · intro hfinite row hrow
        obtain ⟨⟨grant, row⟩, hentry, rfl⟩ := List.mem_map.1 hrow
        exact hfinite.isFinite i (by simp [hpositions]) grant row ((mem_entries_iff h).1 hentry)
    refine Iff.trans ⟨?_, ?_⟩ hcells
    · rintro ⟨weights, hweights⟩
      obtain ⟨given, hgiven, -⟩ := bind_eq_ok_iff.1 hweights
      exact ⟨given, hgiven⟩
    · rintro ⟨given, hgiven⟩
      exact ⟨_, bind_eq_ok_iff.2 ⟨given, hgiven, rfl⟩⟩
  next hnone hone =>
    refine iff_of_false (fun ⟨weights, hweights⟩ => nomatch hweights) fun hfinite => ?_
    rcases eq_nil_or_singleton hfinite.length_le with hpositions | ⟨i, hpositions⟩
    · exact hnone hpositions
    · exact hone i hpositions

/-! ### Users that the identities list -/

/-- The cells of the only column of users. -/
def userCells (t : Table) : List String :=
  match t.positions userColumn with
  | [i] => t.rows.map fun row => Table.cellAt row i
  | _ => []

/-- The users of an identity table, as its column of users is read. -/
def listedUsers (t : Table) : List String :=
  ((Cell.infer (userCells t)).map Text.strip).filter fun text => !text.isEmpty

/-- A row that names a user. -/
def Names (t : Table) (row : List String) (user : String) : Prop :=
  ∃ i, t.positions userColumn = [i] ∧ identifier? (Table.cellAt row i) = some user

theorem users_of_ofTable {listed : Identities} (h : Identities.ofTable path t = .ok listed) :
    listed.users = listedUsers t := by
  unfold Identities.ofTable at h
  unfold listedUsers userCells
  split at h
  next => cases h
  next i hone =>
    cases h
    simp only [hone]
  next => cases h

theorem exists_names_iff : (∃ row ∈ t.rows, Names t row user) ↔
    ∃ cell ∈ userCells t, identifier? cell = some user := by
  unfold Names userCells
  split
  next i hone => simp [hone]
  next hnone =>
    simp only [List.not_mem_nil, false_and, exists_false, iff_false]
    rintro ⟨row, -, i, hone, -⟩
    exact hnone i hone

/-- A cell in a column of texts shows the identifier in it, or that it is missing. -/
theorem strip_shownOr_iff {cell : String} :
    Text.strip (Cell.shownOr id cell) = user ∧ user.isEmpty = false ↔
      identifier? cell = some user ∨ user = Cell.missingText ∧ Table.isMissing cell = true := by
  have hmark : Text.strip Cell.missingText = Cell.missingText := by decide +kernel
  unfold Cell.shownOr identifier? Table.present?
  cases Table.isMissing cell with
  | true =>
    have hne : Cell.missingText.isEmpty = false := by decide +kernel
    simp only [if_true, hmark, Option.map_none, Option.filter_none, reduceCtorEq, and_true,
      false_or]
    exact ⟨fun h => h.1.symm, fun h => ⟨h.symm, h ▸ hne⟩⟩
  | false => simp [Option.filter_eq_some_iff]

/-- A column of texts lists the users that its rows name, and one more if a cell is missing. -/
theorem mem_listedUsers_of_texts (h : Cell.infer (userCells t) = Cell.texts (userCells t)) :
    user ∈ listedUsers t ↔ (∃ row ∈ t.rows, Names t row user) ∨
      user = Cell.missingText ∧ ∃ cell ∈ userCells t, Table.isMissing cell = true := by
  have hlisted : user ∈ listedUsers t ↔ ∃ cell ∈ userCells t,
      Text.strip (Cell.shownOr id cell) = user ∧ user.isEmpty = false := by
    rw [listedUsers, h, Cell.texts, List.mem_filter, List.map_map, List.mem_map]
    simp only [Function.comp_apply, Bool.not_eq_true', ← exists_and_right, and_assoc]
  rw [hlisted, exists_names_iff]
  simp only [strip_shownOr_iff, and_or_left, exists_or]
  refine or_congr_right ?_
  simp only [and_left_comm, exists_and_left]

/-! ### Both files -/

theorem exists_listed_of_accepts {assignments identities : InputFile}
    (h : Accepts assignments (some identities) t) (ht' : readTable identities = .ok t') :
    ∃ listed, ((some identities).mapM fun file => do
      Identities.ofTable file.path (← readTable file)) = .ok (some listed) ∧
        listed.users = listedUsers t' := by
  obtain ⟨listed, hlisted⟩ := h.identities
  dsimp only [Option.mapM] at hlisted ⊢
  rw [ht'] at hlisted ⊢
  change (Identities.ofTable identities.path t').map some = .ok listed at hlisted
  change ∃ listed, (Identities.ofTable identities.path t').map some = .ok (some listed) ∧ _
  cases hread : Identities.ofTable identities.path t' with
  | error e =>
    rw [hread] at hlisted
    cases hlisted
  | ok read => exact ⟨read, rfl, users_of_ofTable hread⟩

def listOf (text : String) : InputFile := ⟨"identities.csv", some text.toUTF8⟩

theorem accepts_listOf {assignments : InputFile} {text : String} {i : ℕ}
    (h : Accepts assignments none t) (ht' : readTable (listOf text) = .ok t')
    (huser : t'.positions userColumn = [i]) : Accepts assignments (some (listOf text)) t where
  missingInputs := by
    have hassignments := h.missingInputs
    unfold missingInputs at hassignments ⊢
    exact hassignments
  readTable := h.readTable
  ofTable := h.ofTable
  identities := by
    dsimp only [Option.mapM]
    rw [ht']
    dsimp only [bind, Except.bind]
    unfold Identities.ofTable
    rw [huser]
    exact ⟨_, rfl⟩

def assignmentTable (rows : List (List String)) : Table := ⟨["USR_ID", "ROLE_ID"], rows⟩

def identityTable (rows : List (List String)) : Table := ⟨["USR_ID", "department"], rows⟩

end Population

end RoleMining
