import RoleMining.Proofs.Population.Grants

/-!
# What is loaded from an assignment table

A population holds every user with all roles that the table grants. A user weighs the heaviest of
the first rows of its grants, so an order of the rows may hide a heavier row behind a lighter one
for the same role. The settled users are those for which no order does.
-/
namespace RoleMining.Population

variable {t : Table} {user role path : String} {row : List String} {n : ℤ}

/-! ### Weights in some or all rows -/

theorem exists_firstWeight_eq (h : role ∈ rolesOf t user) :
    ∃ row ∈ t.rows, Grants t row user role ∧ firstWeight t user role = rowWeight t row := by
  obtain ⟨row, hrow⟩ := exists_valueAt_iff.2 h
  obtain ⟨hmem, hgrants⟩ := mem_grantsOf.1 (mem_of_valueAt hrow)
  exact ⟨row, hmem, hgrants, by rw [firstWeight, hrow]; rfl⟩

theorem firstWeightOf_le_iff :
    firstWeightOf t user ≤ n ↔ 1 ≤ n ∧ ∀ role ∈ rolesOf t user, firstWeight t user role ≤ n := by
  rw [firstWeightOf, largest_le_iff, List.forall_mem_map]
  rfl

theorem fullWeightOf_le_iff : fullWeightOf t user ≤ n ↔
    1 ≤ n ∧ ∀ row ∈ t.rows, ∀ role, Grants t row user role → rowWeight t row ≤ n := by
  rw [fullWeightOf, largest_le_iff, List.forall_mem_map]
  refine and_congr_right fun _ => ⟨fun h row hrow role hgrants => ?_, fun h grant hgrant => ?_⟩
  · exact h _ (mem_filter_user.2 ⟨role, row, rfl, mem_grantsOf.2 ⟨hrow, hgrants⟩⟩)
  · obtain ⟨role, row, rfl, hmem⟩ := mem_filter_user.1 hgrant
    obtain ⟨hrow, hgrants⟩ := mem_grantsOf.1 hmem
    exact h row hrow role hgrants

theorem firstWeightOf_le_fullWeightOf : firstWeightOf t user ≤ fullWeightOf t user := by
  obtain ⟨hone, hall⟩ := fullWeightOf_le_iff.1 (le_refl (fullWeightOf t user))
  refine firstWeightOf_le_iff.2 ⟨hone, fun role hrole => ?_⟩
  obtain ⟨row, hrow, hgrants, heq⟩ := exists_firstWeight_eq hrole
  exact heq ▸ hall row hrow role hgrants

theorem IsSettled.firstWeightOf_eq (h : IsSettled t user) :
    firstWeightOf t user = fullWeightOf t user := by
  refine le_antisymm firstWeightOf_le_fullWeightOf ?_
  obtain ⟨hone, hall⟩ := firstWeightOf_le_iff.1 (le_refl (firstWeightOf t user))
  refine fullWeightOf_le_iff.2 ⟨hone, fun row hrow role hgrants => ?_⟩
  obtain hlight | ⟨role', hrole', hlighter⟩ := h row hrow role hgrants
  · exact hlight.trans hone
  · obtain ⟨row', hrow', hgrants', heq⟩ := exists_firstWeight_eq hrole'
    exact (hlighter row' hrow' hgrants').trans (heq ▸ hall role' hrole')

/-- A user is settled if a repeated grant repeats its weight. -/
theorem isSettled_of_repeated (h : ∀ row ∈ t.rows, ∀ row' ∈ t.rows, ∀ role, Grants t row user role →
    Grants t row' user role → rowWeight t row = rowWeight t row') : IsSettled t user :=
  fun row hrow role hgrants => .inr ⟨role, mem_rolesOf.2 ⟨row, hrow, hgrants⟩,
    fun row' hrow' hgrants' => (h row hrow row' hrow' role hgrants hgrants').le⟩

theorem isSettled_of_nodup (h : ((grantsOf t).map Prod.fst).Nodup) : IsSettled t user := by
  refine isSettled_of_repeated fun row hrow row' hrow' role hgrants hgrants' => ?_
  have hfirst := valueAt_of_mem h (mem_grantsOf.2 ⟨hrow, hgrants⟩)
  have hsame := hfirst.symm.trans (valueAt_of_mem h (mem_grantsOf.2 ⟨hrow', hgrants'⟩))
  rw [Option.some.inj hsame]

/-! ### Orders of the rows -/

section Order

variable {rows : List (List String)}

theorem grantsOf_append (t : Table) (xs ys : List (List String)) :
    grantsOf { t with rows := xs ++ ys } =
      grantsOf { t with rows := xs } ++ grantsOf { t with rows := ys } := by
  have hpositions (rows) (name) : Table.positions { t with rows } name = t.positions name := rfl
  unfold grantsOf
  simp only [hpositions]
  split
  next => exact List.filterMap_append
  next => rfl

theorem rolesOf_of_perm (h : rows.Perm t.rows) : rolesOf { t with rows } user = rolesOf t user := by
  refine IdSet.ext_mem fun role => ?_
  rw [mem_rolesOf, mem_rolesOf]
  exact exists_congr fun row => and_congr_left fun _ => h.mem_iff

theorem fullWeightOf_of_perm (h : rows.Perm t.rows) :
    fullWeightOf { t with rows } user = fullWeightOf t user := by
  refine eq_of_forall_ge_iff fun n => ?_
  rw [fullWeightOf_le_iff, fullWeightOf_le_iff]
  exact and_congr_right fun _ => forall_congr' fun row => imp_congr_left h.mem_iff

theorem IsSettled.of_perm (hsettled : IsSettled t user) (h : rows.Perm t.rows) :
    IsSettled { t with rows } user := by
  intro row hrow role hgrants
  refine (hsettled row (h.mem_iff.1 hrow) role hgrants).imp_right ?_
  rintro ⟨role', hrole', hlighter⟩
  exact ⟨role', (rolesOf_of_perm h).symm ▸ hrole',
    fun row' hrow' => hlighter row' (h.mem_iff.1 hrow')⟩

/-- With light rows in front, a role that one of them grants weighs little. -/
theorem firstWeight_lt_of_front {light : List (List String)}
    (hlight : ∀ row ∈ light, rowWeight t row < n)
    (hrole : ∃ row ∈ light, Grants t row user role) :
    firstWeight { t with rows := light ++ rows } user role < n := by
  obtain ⟨row, hrow⟩ := exists_valueAt_iff.2 (mem_rolesOf (t := { t with rows := light }).2 hrole)
  have hmem := (mem_grantsOf.1 (mem_of_valueAt hrow)).1
  rw [firstWeight, grantsOf_append, valueAt_append, hrow]
  exact hlight row hmem

/-- The settled users are those that weigh the same in every order of the rows. -/
theorem isSettled_iff_forall_perm : IsSettled t user ↔
    ∀ rows, rows.Perm t.rows → firstWeightOf { t with rows } user = fullWeightOf t user := by
  constructor
  · intro hsettled rows h
    rw [(hsettled.of_perm h).firstWeightOf_eq, fullWeightOf_of_perm h]
  · -- the rows that are lighter than a row that is never outweighed may all stand in front of it
    intro hall row hrow role hgrants
    by_contra hunsettled
    push Not at hunsettled
    obtain ⟨hheavy, hlighter⟩ := hunsettled
    let isLight row' := decide (rowWeight t row' < rowWeight t row)
    have hperm : (t.rows.filter isLight ++ t.rows.filter (!isLight ·)).Perm t.rows :=
      List.filter_append_perm isLight t.rows
    have hfull := (fullWeightOf_le_iff.1 (hall _ hperm).ge).2 row hrow role hgrants
    refine absurd hfull (not_le.2 (Int.lt_of_le_sub_one ?_))
    refine firstWeightOf_le_iff.2 ⟨by omega, fun role' hrole' => Int.le_sub_one_of_lt ?_⟩
    rw [rolesOf_of_perm hperm] at hrole'
    obtain ⟨row', hrow', hgrants', hlt⟩ := hlighter role' hrole'
    exact firstWeight_lt_of_front
      (fun row'' hrow'' => of_decide_eq_true (List.mem_filter.1 hrow'').2)
      ⟨row', List.mem_filter.2 ⟨hrow', decide_eq_true hlt⟩, hgrants'⟩

theorem PlainWeights.of_perm (hplain : PlainWeights t) (h : rows.Perm t.rows) :
    PlainWeights { t with rows } where
  length_le := hplain.length_le
  isPlain i hi := by
    refine (hplain.isPlain i hi).subset (List.map_subset _ ?_)
    rintro ⟨⟨user, role⟩, row⟩ hmem
    obtain ⟨hrow, hgrants⟩ := mem_grantsOf.1 hmem
    exact mem_grantsOf.2 ⟨h.mem_iff.1 hrow, hgrants⟩

end Order

/-! ### Files -/

/-- The files are there, the assignments are a table with its columns of identifiers, and so are
the identities if they are given. -/
structure Accepts (assignments : InputFile) (identities : Option InputFile) (t : Table) : Prop where
  missingInputs : missingInputs assignments identities = []
  readTable : readTable assignments = .ok t
  ofTable : ∃ a, Assignments.ofTable assignments.path t = .ok a
  identities : ∃ listed, (identities.mapM fun file => do
    Identities.ofTable file.path (← Population.readTable file)) = .ok listed

/-- The record of a user in a table. -/
def recordIn (t : Table) (user : String) : Record :=
  ⟨user, rolesOf t user, firstWeightOf t user, one_le_largest⟩

/-- The users that are granted a role, and others that are listed. -/
def usersOf (t : Table) (listed : List String) : IdSet :=
  .ofList ((grantsOf t).map (·.1.1) ++ listed)

theorem mem_usersOf {listed : List String} : user ∈ usersOf t listed ↔
    (∃ row ∈ t.rows, ∃ role, Grants t row user role) ∨ user ∈ listed := by
  rw [usersOf, IdSet.mem_ofList, List.mem_append, List.mem_map]
  refine or_congr_left ⟨?_, ?_⟩
  · rintro ⟨⟨⟨user, role⟩, row⟩, hmem, rfl⟩
    obtain ⟨hrow, hgrants⟩ := mem_grantsOf.1 hmem
    exact ⟨row, hrow, role, hgrants⟩
  · rintro ⟨row, hrow, role, hgrants⟩
    exact ⟨_, mem_grantsOf.2 ⟨hrow, hgrants⟩, rfl⟩

theorem usersOf_of_perm {rows : List (List String)} {listed : List String} (h : rows.Perm t.rows) :
    usersOf { t with rows } listed = usersOf t listed := by
  refine IdSet.ext_mem fun user => ?_
  rw [mem_usersOf, mem_usersOf]
  exact or_congr_left (exists_congr fun row => and_congr_left fun _ => h.mem_iff)

/-- A population has a record for each user, once the weights can be read. -/
theorem build_eq_ok_iff {a : Assignments} (ha : Assignments.ofTable path t = .ok a)
    (identities : Option Identities) {records : List Record} : build a identities = .ok records ↔
      ∃ weights, a.weights = .ok weights ∧
        records = (usersOf t ((identities.map Identities.users).getD [])).toList.map
          (recordOf (heldRoles a) weights) := by
  have husers : ∀ listed, IdSet.ofList ((heldRoles a).keys ++ listed) = usersOf t listed := by
    intro listed
    refine IdSet.ext_mem fun user => ?_
    rw [IdSet.mem_ofList, List.mem_append, mem_keys_heldRoles ha, mem_usersOf]
    refine or_congr_left ?_
    simp only [mem_rolesOf]
    exact ⟨fun ⟨role, row, hrow, h⟩ => ⟨row, hrow, role, h⟩,
      fun ⟨row, hrow, role, h⟩ => ⟨role, row, hrow, h⟩⟩
  unfold build
  rw [bind_eq_ok_iff]
  simp only [husers, pure, Except.pure, Except.ok.injEq, eq_comm]

theorem build_eq_ok {a : Assignments} (ha : Assignments.ofTable path t = .ok a)
    (hplain : PlainWeights t) (identities : Option Identities) :
    build a identities =
      .ok ((usersOf t ((identities.map Identities.users).getD [])).toList.map (recordIn t)) := by
  obtain ⟨weights, hweights, hlargest⟩ := exists_weights ha hplain
  have hrecord : recordOf (heldRoles a) weights = recordIn t := by
    funext user
    unfold recordOf recordIn
    congr 1
    · exact find?_heldRoles ha user
    · exact hlargest user
  exact (build_eq_ok_iff ha identities).2 ⟨weights, hweights, hrecord ▸ rfl⟩

section Files

variable {assignments : InputFile} {identities : Option InputFile} {listed : Option Identities}
variable (h : Accepts assignments identities t)
variable (hlisted : (identities.mapM fun file => do
  Identities.ofTable file.path (← readTable file)) = .ok listed)
include h hlisted

/-- Accepted files are loaded by building the population. -/
theorem load_eq_ok_iff {a : Assignments} (ha : Assignments.ofTable assignments.path t = .ok a)
    {records : List Record} :
    load assignments identities = .ok records ↔ build a listed = .ok records := by
  have hfiles : ofFiles assignments identities = build a listed := by
    unfold ofFiles
    rw [h.readTable]
    dsimp only [bind, Except.bind] at hlisted ⊢
    rw [ha]
    dsimp only
    rw [hlisted]
  rw [load, h.missingInputs, hfiles]
  cases build a listed <;> simp [Except.mapError]

theorem load_eq_ok (hplain : PlainWeights t) :
    load assignments identities =
      .ok ((usersOf t ((listed.map Identities.users).getD [])).toList.map (recordIn t)) := by
  obtain ⟨a, ha⟩ := h.ofTable
  exact (load_eq_ok_iff h hlisted ha).2 (build_eq_ok ha hplain listed)

end Files

/-- A plain table loads with one record for each user, in ascending order: the user's roles are
those that it is granted, and it weighs the heaviest of the first rows of its grants. A settled
user, and no other, weighs the heaviest of all its rows in whichever order they stand. A file with
the same rows in another order loads with the same users and roles, and settled users weigh the
same. -/
theorem users_weigh_their_first_rows {assignments : InputFile} {identities : Option InputFile}
    {t : Table} (h : Accepts assignments identities t) (hplain : PlainWeights t) :
    ∃ records, load assignments identities = .ok records ∧
      records.Pairwise (fun r s => r.oid < s.oid) ∧
      (∀ row ∈ t.rows, ∀ user role, Grants t row user role → ∃ r ∈ records, r.oid = user) ∧
      (∀ r ∈ records,
        (∀ role, role ∈ r.properties ↔ ∃ row ∈ t.rows, Grants t row r.oid role) ∧
        r.weight = largest (r.properties.toList.map (firstWeight t r.oid)) ∧
        r.weight ≤ fullWeightOf t r.oid ∧
        (IsSettled t r.oid → r.weight = fullWeightOf t r.oid) ∧
        (IsSettled t r.oid ↔ ∀ rows, rows.Perm t.rows →
          (recordIn { t with rows } r.oid).weight = fullWeightOf t r.oid)) ∧
      ∀ assignments' t', Accepts assignments' identities t' → t'.columns = t.columns →
        t'.rows.Perm t.rows → ∃ records', load assignments' identities = .ok records' ∧
          records'.map (fun r => (r.oid, r.properties)) =
            records.map (fun r => (r.oid, r.properties)) ∧
          (∀ r ∈ records, IsSettled t r.oid → r ∈ records') ∧
          ((∀ user, IsSettled t user) → records' = records) := by
  obtain ⟨listed, hlisted⟩ := h.identities
  refine ⟨_, load_eq_ok h hlisted hplain, ?_, ?_, ?_, ?_⟩
  · rw [List.pairwise_map]
    exact (usersOf t _).sorted
  · intro row hrow user role hgrants
    exact ⟨recordIn t user,
      List.mem_map_of_mem (mem_usersOf.2 (.inl ⟨row, hrow, role, hgrants⟩)), rfl⟩
  · intro r hr
    obtain ⟨user, -, rfl⟩ := List.mem_map.1 hr
    exact ⟨fun role => mem_rolesOf, rfl, firstWeightOf_le_fullWeightOf,
      IsSettled.firstWeightOf_eq, isSettled_iff_forall_perm⟩
  · rintro assignments' ⟨columns, rows⟩ h' rfl hperm
    have hrecord : ∀ user, IsSettled t user → recordIn { t with rows } user = recordIn t user := by
      intro user hsettled
      have hweight := isSettled_iff_forall_perm.1 hsettled rows hperm
      rw [← hsettled.firstWeightOf_eq] at hweight
      unfold recordIn
      congr 1
      exact rolesOf_of_perm hperm
    refine ⟨_, load_eq_ok h' hlisted (hplain.of_perm hperm), ?_, ?_, ?_⟩
    · rw [usersOf_of_perm hperm, List.map_map, List.map_map]
      refine List.map_congr_left fun user _ => ?_
      exact congrArg (Prod.mk user) (rolesOf_of_perm hperm)
    · rw [usersOf_of_perm hperm]
      intro r hr hsettled
      obtain ⟨user, huser, rfl⟩ := List.mem_map.1 hr
      exact List.mem_map.2 ⟨user, huser, hrecord user hsettled⟩
    · intro hsettled
      rw [usersOf_of_perm hperm]
      exact List.map_congr_left fun user _ => hrecord user (hsettled user)

/-! ### Ann and Bob -/

def fileOf (text : String) : InputFile := ⟨"assignments.csv", some text.toUTF8⟩

theorem readTable_eq_ok {file : InputFile}
    (hread : (readTable file).toOption.map (fun t => (t.columns, t.rows)) =
      some (t.columns, t.rows)) : readTable file = .ok t := by
  obtain ⟨⟨columns, rows⟩, hok, hparts⟩ := exists_ok_of_toOption_map hread
  cases t
  cases hparts
  exact hok

theorem accepts_fileOf {text : String} {i j : ℕ}
    (hread : (readTable (fileOf text)).toOption.map (fun t => (t.columns, t.rows)) =
      some (t.columns, t.rows))
    (huser : t.positions userColumn = [i]) (hrole : t.positions roleColumn = [j]) :
    Accepts (fileOf text) none t where
  missingInputs := rfl
  readTable := readTable_eq_ok hread
  ofTable := ⟨_, ofTable_eq_ok_iff.2 ⟨⟨i, huser⟩, ⟨j, hrole⟩, rfl⟩⟩
  identities := ⟨none, rfl⟩

def weightTable (rows : List (List String)) : Table := ⟨["USR_ID", "ROLE_ID", "WEIGHT"], rows⟩

/-- Ann is heavier in one of her rows, and Bob's row gives no weight. -/
theorem ann_weighs_seven_in_either_order :
    let file := fileOf "USR_ID,ROLE_ID,WEIGHT\nann,dev,2\nann,ops,7\nbob,dev,\n"
    let file' := fileOf "USR_ID,ROLE_ID,WEIGHT\nbob,dev,\nann,ops,7\nann,dev,2\n"
    ∃ t t' : Table, Accepts file none t ∧ PlainWeights t ∧ Accepts file' none t' ∧
      t'.columns = t.columns ∧ t'.rows.Perm t.rows ∧
      ∃ records, load file none = .ok records ∧ load file' none = .ok records ∧
        ∃ r ∈ records, r.oid = "ann" ∧ r.weight = 7 := by
  let rows := [["ann", "dev", "2"], ["ann", "ops", "7"], ["bob", "dev", ""]]
  have haccepts : Accepts (fileOf "USR_ID,ROLE_ID,WEIGHT\nann,dev,2\nann,ops,7\nbob,dev,\n") none
      (weightTable rows) :=
    accepts_fileOf (i := 0) (j := 1) (by decide +kernel) (by decide +kernel) (by decide +kernel)
  have haccepts' : Accepts (fileOf "USR_ID,ROLE_ID,WEIGHT\nbob,dev,\nann,ops,7\nann,dev,2\n") none
      (weightTable rows.reverse) :=
    accepts_fileOf (i := 0) (j := 1) (by decide +kernel) (by decide +kernel) (by decide +kernel)
  have hplain : PlainWeights (weightTable rows) := ⟨by decide +kernel, by decide +kernel⟩
  have hsettled : ∀ user, IsSettled (weightTable rows) user :=
    fun user => isSettled_of_nodup (by decide +kernel)
  have hann : (("ann", "dev"), ["ann", "dev", "2"]) ∈ grantsOf (weightTable rows) := by
    decide +kernel
  obtain ⟨hrow, hgrants⟩ := mem_grantsOf.1 hann
  obtain ⟨records, hload, -, hknown, hrecords, horders⟩ :=
    users_weigh_their_first_rows haccepts hplain
  obtain ⟨records', hload', -, -, hsame⟩ :=
    horders _ _ haccepts' rfl (List.reverse_perm rows)
  obtain ⟨r, hr, hoid⟩ := hknown _ hrow _ _ hgrants
  refine ⟨_, _, haccepts, hplain, haccepts', rfl, List.reverse_perm rows, records, hload,
    hsame hsettled ▸ hload', r, hr, hoid, ?_⟩
  rw [(hrecords r hr).2.2.2.1 (hsettled _), hoid]
  decide +kernel

/-- The largest weight in Ann's rows is five, but a lighter row before it hides it. -/
theorem ann_weighs_one_behind_a_lighter_row :
    let file := fileOf "USR_ID,ROLE_ID,WEIGHT\nann,dev,1\nann,dev,5\n"
    let file' := fileOf "USR_ID,ROLE_ID,WEIGHT\nann,dev,5\nann,dev,1\n"
    ∃ t t' : Table, Accepts file none t ∧ PlainWeights t ∧ Accepts file' none t' ∧
      t'.columns = t.columns ∧ t'.rows.Perm t.rows ∧ fullWeightOf t "ann" = 5 ∧
      (load file none).toOption = some [⟨"ann", .ofList ["dev"], 1, by decide⟩] ∧
      (load file' none).toOption = some [⟨"ann", .ofList ["dev"], 5, by decide⟩] := by
  refine ⟨weightTable [["ann", "dev", "1"], ["ann", "dev", "5"]],
    weightTable [["ann", "dev", "5"], ["ann", "dev", "1"]],
    accepts_fileOf (i := 0) (j := 1) ?_ ?_ ?_, ⟨?_, ?_⟩, accepts_fileOf (i := 0) (j := 1) ?_ ?_ ?_,
    rfl, List.Perm.swap _ _ _, ?_, ?_, ?_⟩ <;> decide +kernel

end RoleMining.Population
