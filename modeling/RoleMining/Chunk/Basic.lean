import RoleMining.Record
import RoleMining.Total

/-!
# Chunks

A chunk groups identities with exactly the same properties. It keeps the weight of each member and,
when the properties are themselves weighted, of each property.
-/
namespace RoleMining

namespace Chunk

/-- What the members of a chunk are. -/
inductive Kind where
  | users
  | roles
  | plain
deriving DecidableEq, Repr

inductive Status where
  | unclassified
  | included
  | outlier
  | noise
deriving DecidableEq, Repr

def Status.name : Status → String
  | .unclassified => "unclassified"
  | .included => "included"
  | .outlier => "outlier"
  | .noise => "noise"

def Status.ofName? (name : String) : Option Status :=
  [Status.unclassified, .included, .outlier, .noise].find? (·.name == name)

end Chunk

structure Chunk where
  kind : Chunk.Kind := .plain
  members : List String
  properties : List String
  weight : Int
  status : Chunk.Status := .unclassified
  memberWeights : List Int := []
  propertyWeights : List Int := []
deriving DecidableEq

namespace Chunk

/-- The weights beside identifiers; when none are given every identifier weighs one. -/
def weightsBeside (ids : List String) (weights : List Int) : Ledger String Int :=
  .ofList (ids.zip (if weights.isEmpty then List.replicate ids.length 1 else weights))

def memberWeightMap (c : Chunk) : Ledger String Int := weightsBeside c.members c.memberWeights

def propertyWeightMap (c : Chunk) : Ledger String Int :=
  weightsBeside c.properties c.propertyWeights

def propertySet (c : Chunk) : IdSet := .ofList c.properties

/-- The weighted share of a population that holds the chunk. -/
def frequency (c : Chunk) (population : Int) : Except Failure Binary64 :=
  if population ≤ 0 then .ok 0
  else
    match Binary64.ratio? (total c.propertyWeightMap.values) population with
    | some share => .ok share
    | none => .error .numberTooLarge

def toJson (c : Chunk) : Json :=
  .object [("members", .ofStrings c.members), ("properties", .ofStrings c.properties),
    ("weight", .int c.weight), ("status", .str c.status.name)]

/-- One weighted record for each chunk that has members, named by the first. -/
def expand (chunks : List Chunk) : Except Failure (List Record) :=
  (chunks.filterMap fun c => c.members.head?.map fun first => (first, c)).mapM fun (first, c) =>
    Record.make first c.propertySet c.weight

/-- The status that the keys in clusters and the keys without a neighbour give a chunk. -/
def statusIn (included outliers : List (List String)) (c : Chunk) : Status :=
  if c.properties ∈ included then .included
  else if c.properties ∈ outliers then .outlier
  else .noise

/-- The chunks with the status that each of them gets. -/
def classify (included outliers : List (List String)) (chunks : List Chunk) : List Chunk :=
  chunks.map fun c => { c with status := statusIn included outliers c }

end Chunk
end RoleMining
