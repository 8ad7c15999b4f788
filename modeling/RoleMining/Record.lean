import RoleMining.Failure
import RoleMining.IdSet
import RoleMining.Ledger

/-!
# Identity records

A record says which properties one identity holds, and how many members it stands for. Records of
users hold roles; inverted, records of roles hold users.
-/
namespace RoleMining

structure Record where
  oid : String
  properties : IdSet
  weight : Int
  positive : 1 ≤ weight
deriving DecidableEq

namespace Record

/-- A weight has to be at least one; not-a-number is not below it. -/
def checkWeight (oid : String) (weight : Number) : Except Failure Unit :=
  if weight.below 1 then .error (.weightTooSmall weight oid) else .ok ()

/-- A record with a weight that has to be at least one. -/
def make (oid : String) (properties : IdSet) (weight : Int) : Except Failure Record :=
  if positive : 1 ≤ weight then .ok ⟨oid, properties, weight, positive⟩
  else .error (.weightTooSmall (.int weight) oid)

/-- A record that stands for one member. -/
def single (oid : String) (properties : IdSet) : Record := ⟨oid, properties, 1, by decide⟩

def toJson (r : Record) : Json :=
  .object [("oid", .str r.oid), ("properties", .ofStrings r.properties.toList),
    ("weight", .int r.weight)]

end Record

/-- The weight of each identity; of records with one identity the last counts. -/
def weightMap (records : List Record) : Ledger String Int :=
  .ofList (records.map fun r => (r.oid, r.weight))

/-- All properties that the records hold. -/
def heldProperties (records : List Record) : IdSet :=
  records.foldl (fun held r => held.union r.properties) .empty

/-- The identities that hold a property. -/
def holders (records : List Record) (property : String) : IdSet :=
  .ofList ((records.filter fun r => property ∈ r.properties).map (·.oid))

/-- The records of the other axis: one for each held property, in order, with its holders. -/
def invert (records : List Record) : List Record :=
  (heldProperties records).toList.map fun property => .single property (holders records property)

/-- The records of the other axis with weights of their own; an unknown property weighs one. -/
def invertWeighted (weights : Ledger String Int) (records : List Record) :
    Except Failure (List Record) :=
  (heldProperties records).toList.mapM fun property =>
    Record.make property (holders records property) (weightIn weights.find? property)

end RoleMining
