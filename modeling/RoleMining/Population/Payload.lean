import RoleMining.Record
import RoleMining.Run.Basic

/-!
# Populations in requests

A request carries its population as a list of objects, each with an identifier and perhaps with
roles and a weight. Identifiers may be any values; they are taken as messages show them.
-/
namespace RoleMining.Population

/-- The roles of an entry, under either of two names; an empty value is no roles. -/
def entryRoles (index : Nat) (entry : Json) : Except Failure (List Json) :=
  let given := ((entry.field? "roles").or (entry.field? "properties")).getD (.list [])
  match given with
  | .list roles => .ok roles
  | value => if value.isEmptyValue then .ok [] else .error (.rolesNotList index)

def entryWeight (index : Nat) (entry : Json) : Except Failure Int :=
  match ((entry.field? "weight").getD (.int 1)).toInteger with
  | .ok n => .ok n
  | .error .numberTooLarge => .error .numberTooLarge
  | .error _ => .error (.recordWeightNotInteger index)

def entryRecord (index : Nat) (entry : Json) : Except Failure Record := do
  let some oid := entry.field? "oid" | throw (.recordNotObject index)
  let roles ← entryRoles index entry
  let weight ← entryWeight index entry
  Record.make oid.shown (.ofList (roles.map Json.shown)) weight

/-- The records that a request lists. -/
def ofPayload : Json → Except Failure (List Record)
  | .null => .error .recordsRequired
  | .list entries => entries.zipIdx.mapM fun (entry, index) => entryRecord index entry
  | _ => .error .recordsNotList

end RoleMining.Population
