import RoleMining.Population.Basic
import RoleMining.Proofs.Key
import RoleMining.Proofs.Ledger
import RoleMining.Proofs.Population.Weighings

/-!
# Grants

The rows of an assignment table grant roles to users. Of the rows that grant one role to one user
the first counts, and a user weighs what the heaviest of these rows says.
-/
namespace RoleMining.Population

/-- The grants of a table, each a user and a role beside its row. -/
def grantsOf (t : Table) : List ((String × String) × List String) :=
  match t.positions userColumn, t.positions roleColumn with
  | [user], [role] => t.rows.filterMap (Assignments.grant? user role)
  | _, _ => []

/-- A row that names a user and a role. -/
def Grants (t : Table) (row : List String) (user role : String) : Prop :=
  ∃ i j, t.positions userColumn = [i] ∧ t.positions roleColumn = [j] ∧
    identifier? (Table.cellAt row i) = some user ∧ identifier? (Table.cellAt row j) = some role

/-- All roles that a user is granted. -/
def rolesOf (t : Table) (user : String) : IdSet :=
  .ofList (((grantsOf t).filter (·.1.1 = user)).map (·.1.2))

def rowWeight (t : Table) (row : List String) : ℤ :=
  match t.positions weightColumn with
  | [i] => (Assignments.weighing (Table.cellAt row i)).amount
  | _ => 1

/-- The largest of some weights, and at least one. -/
def largest (weights : List ℤ) : ℤ := weights.foldl max 1

/-- The weight in the first row that grants a role to a user. -/
def firstWeight (t : Table) (user role : String) : ℤ :=
  ((valueAt (user, role) (grantsOf t)).map (rowWeight t)).getD 1

/-- What a user weighs in the first rows of its grants. -/
def firstWeightOf (t : Table) (user : String) : ℤ :=
  largest ((rolesOf t user).toList.map (firstWeight t user))

/-- What a user weighs in all its rows. -/
def fullWeightOf (t : Table) (user : String) : ℤ :=
  largest (((grantsOf t).filter (·.1.1 = user)).map fun grant => rowWeight t grant.2)

/-- Each row of the user weighs one at most, or no more than all rows do that grant the user one of
its roles. Then it does not matter which of those stands first. -/
def IsSettled (t : Table) (user : String) : Prop :=
  ∀ row ∈ t.rows, ∀ role, Grants t row user role → rowWeight t row ≤ 1 ∨
    ∃ role' ∈ rolesOf t user, ∀ row' ∈ t.rows, Grants t row' user role' →
      rowWeight t row ≤ rowWeight t row'

/-- There is one weight column at most, and it is plain. -/
structure PlainWeights (t : Table) : Prop where
  length_le : (t.positions weightColumn).length ≤ 1
  isPlain : ∀ i ∈ t.positions weightColumn,
    Assignments.IsPlain ((grantsOf t).map fun grant => Table.cellAt grant.2 i)

variable {t : Table} {a : Assignments} {path user role : String} {row : List String}
  {weights weights' : List ℤ} {n : ℤ}

/-! ### The largest weight -/

theorem foldl_max_le_iff {start : ℤ} :
    weights.foldl max start ≤ n ↔ start ≤ n ∧ ∀ w ∈ weights, w ≤ n := by
  induction weights generalizing start with
  | nil => simp
  | cons w weights ih => rw [List.foldl_cons, ih, max_le_iff, List.forall_mem_cons, and_assoc]

theorem largest_le_iff : largest weights ≤ n ↔ 1 ≤ n ∧ ∀ w ∈ weights, w ≤ n := foldl_max_le_iff

theorem one_le_largest : 1 ≤ largest weights := (largest_le_iff.1 le_rfl).1

theorem largest_congr (h : ∀ w, w ∈ weights ↔ w ∈ weights') : largest weights = largest weights' :=
  eq_of_forall_ge_iff fun n => by simp only [largest_le_iff, h]

/-! ### Rows -/

theorem mem_grantsOf :
    ((user, role), row) ∈ grantsOf t ↔ row ∈ t.rows ∧ Grants t row user role := by
  have hgrant : ∀ i j row', Assignments.grant? i j row' = some ((user, role), row) ↔
      row' = row ∧ identifier? (Table.cellAt row i) = some user ∧
        identifier? (Table.cellAt row j) = some role := by
    intro i j row'
    simp only [Assignments.grant?, Option.bind_eq_bind, Option.bind_eq_some_iff, Option.pure_def,
      Option.some.injEq, Prod.mk.injEq]
    constructor
    · rintro ⟨_, huser, _, hrole, ⟨rfl, rfl⟩, rfl⟩
      exact ⟨rfl, huser, hrole⟩
    · rintro ⟨rfl, huser, hrole⟩
      exact ⟨_, huser, _, hrole, ⟨rfl, rfl⟩, rfl⟩
  unfold grantsOf Grants
  split
  next i j hi hj => simp [hgrant, hi, hj]
  next hneither =>
    simp only [List.not_mem_nil, false_iff, not_and]
    rintro - ⟨i, j, hi, hj, -⟩
    exact hneither i j hi hj

theorem mem_filter_user {entries : List ((String × String) × List String)}
    {entry : (String × String) × List String} : entry ∈ entries.filter (·.1.1 = user) ↔
      ∃ role row, entry = ((user, role), row) ∧ ((user, role), row) ∈ entries := by
  rw [List.mem_filter, decide_eq_true_eq]
  constructor
  · rintro ⟨hmem, rfl⟩
    exact ⟨_, _, rfl, hmem⟩
  · rintro ⟨role, row, rfl, hmem⟩
    exact ⟨hmem, rfl⟩

theorem mem_rolesOf : role ∈ rolesOf t user ↔ ∃ row ∈ t.rows, Grants t row user role := by
  simp only [← mem_grantsOf, rolesOf, IdSet.mem_ofList, List.mem_map]
  constructor
  · rintro ⟨entry, hentry, rfl⟩
    obtain ⟨role, row, rfl, hmem⟩ := mem_filter_user.1 hentry
    exact ⟨row, hmem⟩
  · rintro ⟨row, hmem⟩
    exact ⟨_, mem_filter_user.2 ⟨role, row, rfl, hmem⟩, rfl⟩

/-- Every role that is granted has a first row. -/
theorem exists_valueAt_iff :
    (∃ row, valueAt (user, role) (grantsOf t) = some row) ↔ role ∈ rolesOf t user := by
  simp only [mem_rolesOf, ← mem_grantsOf]
  constructor
  · rintro ⟨row, hrow⟩
    exact ⟨row, mem_of_valueAt hrow⟩
  · rintro ⟨row, hmem⟩
    rw [← Option.isSome_iff_exists, Option.isSome_iff_ne_none, ne_eq, valueAt_eq_none_iff, not_not]
    exact List.mem_map_of_mem (f := Prod.fst) hmem

/-! ### The ledger of grants -/

theorem mem_names_of_positions {name : String} {i : ℕ} (h : i ∈ t.positions name) :
    name ∈ t.names := by
  obtain ⟨⟨name', j⟩, hmem, -⟩ := List.mem_map.1 h
  obtain ⟨hzip, hname⟩ := List.mem_filter.1 hmem
  exact eq_of_beq hname ▸ List.fst_mem_of_mem_zipIdx hzip

theorem eq_nil_or_singleton {positions : List ℕ} (h : positions.length ≤ 1) :
    positions = [] ∨ ∃ i, positions = [i] := by
  rcases Nat.le_one_iff_eq_zero_or_eq_one.1 h with hlength | hlength
  · exact .inl (List.eq_nil_of_length_eq_zero hlength)
  · exact .inr (List.length_eq_one_iff.1 hlength)

/-- A table is accepted if each identifier has one column. -/
theorem ofTable_eq_ok_iff : Assignments.ofTable path t = .ok a ↔
    (∃ i, t.positions userColumn = [i]) ∧ (∃ i, t.positions roleColumn = [i]) ∧
      a = ⟨t.names, (grantsOf t).foldl (fun grants entry => grants.recordNew entry.1 entry.2)
        .empty⟩ := by
  have hposition : ∀ name i, Assignments.position t name = .ok i ↔ t.positions name = [i] := by
    intro name i
    unfold Assignments.position
    split <;> simp_all
  unfold Assignments.ofTable
  constructor
  · intro h
    dsimp only at h
    split at h
    next => cases h
    next =>
      obtain ⟨user, huser, h⟩ := bind_eq_ok_iff.1 h
      obtain ⟨role, hrole, h⟩ := bind_eq_ok_iff.1 h
      rw [hposition] at huser hrole
      refine ⟨⟨user, huser⟩, ⟨role, hrole⟩, ?_⟩
      rw [grantsOf, huser, hrole]
      exact (Except.ok.inj h).symm
  · rintro ⟨⟨user, huser⟩, ⟨role, hrole⟩, rfl⟩
    have hnames : ([userColumn, roleColumn].filter fun name => !t.names.contains name) = [] := by
      have := mem_names_of_positions (huser ▸ List.mem_singleton_self user)
      have := mem_names_of_positions (hrole ▸ List.mem_singleton_self role)
      simp [*]
    have hu := (hposition _ _).2 huser
    have hr := (hposition _ _).2 hrole
    simp only [hnames, hu, hr, grantsOf, huser, hrole]
    rfl

theorem columns_of_ofTable (h : Assignments.ofTable path t = .ok a) : a.columns = t.names := by
  obtain ⟨-, -, rfl⟩ := ofTable_eq_ok_iff.1 h
  rfl

theorem find?_grants (h : Assignments.ofTable path t = .ok a) (key : String × String) :
    a.grants.find? key = valueAt key (grantsOf t) := by
  obtain ⟨-, -, rfl⟩ := ofTable_eq_ok_iff.1 h
  rw [Ledger.find?_foldl_recordNew, Ledger.find?_empty, Option.none_or]

theorem mem_entries_iff (h : Assignments.ofTable path t = .ok a) :
    ((user, role), row) ∈ a.grants.entries ↔ valueAt (user, role) (grantsOf t) = some row := by
  rw [Ledger.mem_entries_iff, find?_grants h]

theorem mem_pairs_iff (h : Assignments.ofTable path t = .ok a) :
    (user, role) ∈ a.pairs ↔ role ∈ rolesOf t user := by
  rw [Assignments.pairs, Ledger.mem_keys_iff, ← exists_valueAt_iff]
  simp only [find?_grants h]

/-! ### Roles -/

theorem mem_foldl_insert {pairs : List (String × String)} {held : Ledger String IdSet} :
    role ∈ ((pairs.foldl (fun (held : Ledger String IdSet) (user, role) =>
        held.record user (((held.find? user).getD .empty).insert role)) held).find? user).getD
          .empty ↔
      role ∈ (held.find? user).getD .empty ∨ (user, role) ∈ pairs := by
  induction pairs generalizing held with
  | nil => simp
  | cons pair pairs ih =>
    obtain ⟨user', role'⟩ := pair
    rw [List.foldl_cons, ih, Ledger.find?_record, List.mem_cons, Prod.mk.injEq]
    by_cases huser : user = user'
    · simp [huser, or_assoc, or_left_comm]
    · simp [huser]

theorem mem_keys_foldl_insert {pairs : List (String × String)} {held : Ledger String IdSet} :
    user ∈ (pairs.foldl (fun (held : Ledger String IdSet) (user, role) =>
        held.record user (((held.find? user).getD .empty).insert role)) held).keys ↔
      user ∈ held.keys ∨ ∃ role, (user, role) ∈ pairs := by
  induction pairs generalizing held with
  | nil => simp
  | cons pair pairs ih =>
    obtain ⟨user', role'⟩ := pair
    have hstep : user ∈ (held.record user' (((held.find? user').getD .empty).insert role')).keys ↔
        user = user' ∨ user ∈ held.keys := by
      rw [Ledger.mem_keys_iff, Ledger.mem_keys_iff, Ledger.find?_record]
      by_cases huser : user = user' <;> simp [huser]
    rw [List.foldl_cons, ih, hstep]
    simp only [List.mem_cons, Prod.mk.injEq, exists_or, exists_and_left, exists_eq, and_true]
    tauto

theorem find?_heldRoles (h : Assignments.ofTable path t = .ok a) (user : String) :
    ((heldRoles a).find? user).getD .empty = rolesOf t user := by
  refine IdSet.ext_mem fun role => ?_
  rw [heldRoles, mem_foldl_insert, mem_pairs_iff h]
  exact or_iff_right (by simp [IdSet.mem_def, IdSet.empty])

theorem mem_keys_heldRoles (h : Assignments.ofTable path t = .ok a) :
    user ∈ (heldRoles a).keys ↔ ∃ role, role ∈ rolesOf t user := by
  rw [heldRoles, mem_keys_foldl_insert]
  simp [mem_pairs_iff h, Ledger.keys, Ledger.empty]

/-! ### Weights -/

/-- What a user weighs so far is raised by each of the user's weights. -/
theorem max_weightIn_foldl {entries : List ((String × String) × ℤ)} {weights : Ledger String ℤ} :
    max 1 (weightIn (entries.foldl (fun (largest : Ledger String ℤ) ((user, _), weight) =>
        largest.record user (match largest.find? user with
          | some other => max other weight
          | none => weight)) weights).find? user) =
      ((entries.filter (·.1.1 = user)).map Prod.snd).foldl max
        (max 1 (weightIn weights.find? user)) := by
  induction entries generalizing weights with
  | nil => rfl
  | cons entry entries ih =>
    obtain ⟨⟨user', role'⟩, w⟩ := entry
    rw [List.foldl_cons, ih]
    by_cases huser : user' = user
    · subst huser
      have hraised : max (1 : ℤ) (weightIn (weights.record user' (match weights.find? user' with
          | some other => max other w
          | none => w)).find? user') = max (max 1 (weightIn weights.find? user')) w := by
        rw [weightIn, weightIn, Ledger.find?_record, if_pos rfl]
        cases weights.find? user' with
        | none => simp
        | some other => exact (max_assoc 1 other w).symm
      simp [hraised]
    · simp [huser, weightIn, Ledger.find?_record, Ne.symm huser]

/-- The user's first rows, in the order of the ledger or in that of the roles. -/
theorem largest_entries (h : Assignments.ofTable path t = .ok a) (user : String) :
    largest ((a.grants.entries.filter (·.1.1 = user)).map fun entry => rowWeight t entry.2) =
      firstWeightOf t user := by
  refine largest_congr fun w => ?_
  rw [List.mem_map, List.mem_map]
  constructor
  · rintro ⟨entry, hentry, rfl⟩
    obtain ⟨role, row, rfl, hmem⟩ := mem_filter_user.1 hentry
    have hrow := (mem_entries_iff h).1 hmem
    refine ⟨role, exists_valueAt_iff.1 ⟨row, hrow⟩, ?_⟩
    rw [firstWeight, hrow]
    rfl
  · rintro ⟨role, hrole, rfl⟩
    obtain ⟨row, hrow⟩ := exists_valueAt_iff.2 (IdSet.mem_def.2 hrole)
    refine ⟨_, mem_filter_user.2 ⟨role, row, rfl, (mem_entries_iff h).2 hrow⟩, ?_⟩
    rw [firstWeight, hrow]
    rfl

theorem exists_weights (h : Assignments.ofTable path t = .ok a) (hplain : PlainWeights t) :
    ∃ weights, a.weights = .ok weights ∧
      ∀ user, max 1 (weightIn weights.find? user) = firstWeightOf t user := by
  unfold Assignments.weights
  rw [columns_of_ofTable h]
  split
  next hnone =>
    have hpositions : t.positions weightColumn = [] := hnone
    refine ⟨.empty, rfl, fun user => ?_⟩
    rw [← largest_entries h]
    have hone : ∀ row, rowWeight t row = 1 := fun row => by rw [rowWeight, hpositions]
    refine (le_antisymm (largest_le_iff.2 ⟨le_rfl, fun w hw => ?_⟩) one_le_largest).symm
    obtain ⟨entry, -, rfl⟩ := List.mem_map.1 hw
    exact (hone _).le
  next i hone =>
    have hpositions : t.positions weightColumn = [i] := hone
    have hcell : ∀ row, rowWeight t row = (Assignments.weighing (Table.cellAt row i)).amount :=
      fun row => by rw [rowWeight, hpositions]
    have hsub : (a.grants.values.map fun row => Table.cellAt row i) ⊆
        (grantsOf t).map fun grant => Table.cellAt grant.2 i := by
      intro cell hcell
      obtain ⟨row, hrow, rfl⟩ := List.mem_map.1 hcell
      obtain ⟨⟨⟨user, role⟩, row⟩, hentry, rfl⟩ := List.mem_map.1 hrow
      have hgrant := mem_of_valueAt ((mem_entries_iff h).1 hentry)
      exact List.mem_map.2 ⟨_, hgrant, rfl⟩
    have hcells := Assignments.columnWeights_eq
      ((hplain.isPlain i (hpositions ▸ List.mem_singleton_self i)).subset hsub)
    refine ⟨_, bind_eq_ok_iff.2 ⟨_, hcells, rfl⟩, fun user => ?_⟩
    have hzip : a.pairs.zip ((a.grants.values.map fun row => Table.cellAt row i).map
        fun cell => (Assignments.weighing cell).amount) =
          a.grants.entries.map fun entry => (entry.1, rowWeight t entry.2) := by
      simp only [Assignments.pairs, Ledger.keys, Ledger.values, List.map_map, List.zip_map', hcell,
        Function.comp_def]
    rw [hzip]
    refine max_weightIn_foldl.trans ?_
    rw [← largest_entries h, List.filter_map, List.map_map]
    rfl
  next hnone hone =>
    rcases eq_nil_or_singleton hplain.length_le with hpositions | ⟨i, hpositions⟩
    · exact (hnone hpositions).elim
    · exact (hone i hpositions).elim

end RoleMining.Population
