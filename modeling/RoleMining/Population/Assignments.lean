import RoleMining.Population.Cell

/-!
# Assignments

An assignment table says which user holds which role, one grant a row. Rows without a user or a
role are dropped, and a grant that is repeated counts once. A weight column gives the number of
members that a user stands for.
-/
namespace RoleMining

def userColumn : String := "USR_ID"

def roleColumn : String := "ROLE_ID"

def weightColumn : String := "WEIGHT"

/-- The identifier in a cell, if there is one. -/
def identifier? (cell : String) : Option String :=
  ((Table.present? cell).map Text.strip).filter fun text => !text.isEmpty

structure Assignments where
  columns : List String
  /-- The row of each grant of a role to a user, in the order in which they first occur. -/
  grants : Ledger (String × String) (List String)

namespace Assignments

/-- The only position of a column that has to be there. -/
def position (t : Table) (name : String) : Except TableFault Nat :=
  match t.positions name with
  | [i] => .ok i
  | _ => .error .repeatedColumn

def grant? (user role : Nat) (row : List String) : Option ((String × String) × List String) := do
  let holder ← identifier? (Table.cellAt row user)
  let held ← identifier? (Table.cellAt row role)
  return ((holder, held), row)

/-- The grants of a table; the path is for messages. -/
def ofTable (path : String) (t : Table) : Except TableFault Assignments := do
  let absent := [userColumn, roleColumn].filter fun name => !t.names.contains name
  if !absent.isEmpty then throw (.missingAssignmentColumns path absent)
  let user ← position t userColumn
  let role ← position t roleColumn
  let given := t.rows.filterMap (grant? user role)
  return {
    columns := t.names
    grants := given.foldl (fun grants (key, row) => grants.recordNew key row) .empty }

/-- The pairs of a user and a role. -/
def pairs (a : Assignments) : List (String × String) := a.grants.keys

/-! ## Weights -/

/-- What a weight cell says. -/
inductive Weighing where
  /-- A text that is no number. -/
  | nothing
  /-- An integer, beside its reading in double precision. -/
  | whole (n : Int) (x : Binary64)
  | fraction (x : Binary64)

def weighing (cell : String) : Weighing :=
  if Table.isMissing cell then .nothing
  else match Cell.numeral? cell with
    | some numeral =>
      match numeral.isWhole, Text.integer? cell with
      | true, some n => .whole n numeral.value
      | _, _ => .fraction numeral.value
    | none => ((Cell.infinity? cell).map Weighing.fraction).getD .nothing

/-- The integers of a column, when machine words of one kind hold them all; unsigned ones become
signed. -/
def wholeWeights? (column : List Weighing) : Option (List Int) := do
  let whole ← column.mapM fun
    | .whole n _ => if Word.least ≤ n && n < Word.unsignedEnd then some n else none
    | _ => none
  let hasLarge := whole.any fun n => decide (Word.signedEnd ≤ n)
  if hasLarge && whole.any (fun n => decide (n < 0)) then none
  else some (whole.map Word.signed)

/-- A double-precision weight as a signed machine word; one that is too large becomes the least
word. -/
def wordOfDouble (x : Binary64) : Except TableFault Int :=
  if x.isFinite then
    let n := x.truncate
    .ok (if Word.isSigned n then n else Word.least)
  else .error .infiniteWeight

def roundedWeight : Weighing → Except TableFault Int
  | .nothing => .ok 1
  | .whole _ x => wordOfDouble x
  | .fraction x => wordOfDouble x

/-- The weights of a column: integers as they are, and fractions cut off as soon as one cell holds
something else. -/
def columnWeights (cells : List String) : Except TableFault (List Int) :=
  let column := cells.map weighing
  match wholeWeights? column with
  | some weights => .ok weights
  | none => column.mapM roundedWeight

/-- The largest weight that a user is given. -/
def weights (a : Assignments) : Except TableFault (Ledger String Int) := do
  match (a.columns.zipIdx.filter fun (name, _) => name == weightColumn).map Prod.snd with
  | [] => return .empty
  | [i] =>
    let given ← columnWeights (a.grants.values.map fun row => Table.cellAt row i)
    return (a.pairs.zip given).foldl
      (fun (largest : Ledger String Int) ((user, _), weight) =>
        largest.record user (match largest.find? user with
          | some other => max other weight
          | none => weight))
      .empty
  | _ => throw .repeatedWeightColumn

end Assignments
end RoleMining
