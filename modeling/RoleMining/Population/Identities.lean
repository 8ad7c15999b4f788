import RoleMining.Population.Assignments

/-!
# Identities

An identity table lists the users of a population, with or without assignments. Its identifiers are
read as numbers or truth values when all of them are such.
-/
namespace RoleMining

structure Identities where
  /-- The other columns. -/
  columns : List String
  users : List String

namespace Identities

/-- The users of a table; the path is for messages. -/
def ofTable (path : String) (t : Table) : Except TableFault Identities :=
  match t.positions userColumn with
  | [] => .error (.missingIdentityColumn path userColumn)
  | [i] =>
    let cells := Cell.infer (t.rows.map fun row => Table.cellAt row i)
    .ok {
      columns := t.names.filter fun name => name != userColumn
      users := (cells.map Text.strip).filter fun text => !text.isEmpty }
  | _ => .error .repeatedColumn

end Identities
end RoleMining
