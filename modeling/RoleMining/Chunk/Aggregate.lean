import RoleMining.Chunk.Basic
import RoleMining.Word

/-!
# Aggregation

Records with the same properties become one chunk. Member weights add up in machine words as long
as every record's weight fits one: a sum past the largest word wraps around. Weights that fit no
word add up exactly.
-/
namespace RoleMining.Chunk

/-- The arithmetic in which weights are added. -/
inductive Width where
  | signed
  | unsigned
  | exact
deriving DecidableEq, Repr

namespace Width

def wrap : Width → Int → Int
  | .signed, n => Word.signed n
  | .unsigned, n => Word.unsigned n
  | .exact, n => n

/-- The smallest words that hold all weights. -/
def holding (weights : List Int) : Width :=
  if weights.all (· < Word.signedEnd) then .signed
  else if weights.all (· < Word.unsignedEnd) then .unsigned
  else .exact

def sum (width : Width) (weights : List Int) : Int := width.wrap (total weights)

end Width

/-- The heavier chunk first; of equal weights the smaller key. -/
def ordered (a b : Chunk) : Bool :=
  b.weight < a.weight || (a.weight == b.weight && keyAtMost a.properties b.properties)

/-- The chunk of the records that hold exactly `key`. -/
def ofGroup (kind : Kind) (width : Width) (propertyWeights : Ledger String Int)
    (records : List Record) (key : IdSet) : Chunk :=
  let group := records.filter (·.properties = key)
  let members := (IdSet.ofList (group.map (·.oid))).toList
  let weights := members.map fun oid =>
    width.sum ((group.filter (·.oid = oid)).map (·.weight))
  { kind
    members
    properties := key.toList
    weight := width.sum weights
    memberWeights := weights
    propertyWeights :=
      if propertyWeights.size = 0 then []
      else key.toList.map (weightIn propertyWeights.find?) }

/-- One chunk for each property set that occurs, heaviest first. -/
def aggregate (kind : Kind) (propertyWeights : Ledger String Int) (records : List Record) :
    List Chunk :=
  let width := Width.holding (records.map (·.weight))
  let keys := (records.map (·.properties)).eraseDups
  (keys.map (ofGroup kind width propertyWeights records)).mergeSort ordered

/-- Users with the same roles. -/
def ofUsers (records : List Record) : List Chunk := aggregate .users .empty records

/-- Roles with the same users, each user weighing what its record weighs. -/
def ofRoles (records : List Record) : List Chunk :=
  aggregate .roles (weightMap records) (invert records)

end RoleMining.Chunk
