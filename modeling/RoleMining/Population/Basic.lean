import RoleMining.Population.Identities
import RoleMining.Record

/-!
# Populations

A population is the list of its identity records, one for each user, ordered by identifier. It is
built from the assignments; users that only the identities list hold no role.
-/
namespace RoleMining

/-- An input file, which may not exist. -/
structure InputFile where
  path : String
  content : Option ByteArray

namespace Population

/-- The roles of each user. -/
def heldRoles (a : Assignments) : Ledger String IdSet :=
  a.pairs.foldl
    (fun (held : Ledger String IdSet) (user, role) =>
      held.record user (((held.find? user).getD .empty).insert role))
    .empty

/-- A user's record; no weight is below one. -/
def recordOf (held : Ledger String IdSet) (weights : Ledger String Int) (user : String) : Record :=
  ⟨user, (held.find? user).getD .empty, max 1 (weightIn weights.find? user), Int.le_max_left ..⟩

def build (a : Assignments) (identities : Option Identities) :
    Except TableFault (List Record) := do
  let held := heldRoles a
  let weights ← a.weights
  let listed := (identities.map Identities.users).getD []
  return (IdSet.ofList (held.keys ++ listed)).toList.map (recordOf held weights)

def readTable (file : InputFile) : Except TableFault Table :=
  Table.ofBytes (file.content.getD .empty)

/-- The population that the files spell. -/
def ofFiles (assignments : InputFile) (identities : Option InputFile) :
    Except TableFault (List Record) := do
  let a ← Assignments.ofTable assignments.path (← readTable assignments)
  let listed ← identities.mapM fun file => do
    Identities.ofTable file.path (← readTable file)
  build a listed

/-- The names of the inputs whose files do not exist. -/
def missingInputs (assignments : InputFile) (identities : Option InputFile) : List String :=
  (if assignments.content.isNone then ["assignments"] else []) ++
    if identities.any (·.content.isNone) then ["identities"] else []

def load (assignments : InputFile) (identities : Option InputFile) :
    Except Failure (List Record) :=
  match missingInputs assignments identities with
  | [] => (ofFiles assignments identities).mapError .table
  | missing => .error (.missingFiles missing)

end Population
end RoleMining
