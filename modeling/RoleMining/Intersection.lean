import RoleMining.Frequency
import RoleMining.Run.Basic
import RoleMining.Settings.Validate
import RoleMining.Total

/-!
# Shared property sets

The sets that members of a cluster share are found in two passes. The outer pass intersects every
two members' sets; the inner pass intersects every two distinct results of the outer pass. A set
keeps the provenance of the pass that found it first.
-/
namespace RoleMining

inductive Provenance where
  | outer
  | inner
deriving DecidableEq, Repr

def Provenance.name : Provenance → String
  | .outer => "outer"
  | .inner => "inner"

/-- Every two elements at distinct positions, the earlier one first. -/
def pairs {α : Type} : List α → List (α × α)
  | [] => []
  | a :: rest => rest.map (fun b => (a, b)) ++ pairs rest

/-- What a pass over pairs leaves: the run, the qualifying intersections in the order of the pairs,
and whether the pass was stopped. -/
structure Sweep (α : Type) where
  run : Run α
  seen : List IdSet
  stopped : Bool

namespace Sweep

variable {α : Type}

/-- Go on with the pairs that are left, after `compared` pairs; `seen` holds the latest first. -/
def walk (qualifies : IdSet → Bool) (total : Nat) (run : Run α) (compared : Nat)
    (seen : List IdSet) : List (IdSet × IdSet) → Sweep α
  | [] =>
    let run := run.checkpoint ⟨compared, total, true⟩
    ⟨run, seen.reverse, run.cancelled⟩
  | (a, b) :: rest =>
    let due := run.isDue (compared + 1)
    let run := if due then run.checkpoint ⟨compared + 1, total, false⟩ else run
    if due && run.cancelled then ⟨run, seen.reverse, true⟩
    else
      let shared := a.inter b
      walk qualifies total run (compared + 1)
        (if qualifies shared then shared :: seen else seen) rest

/-- Intersect every two of the sets. The run is told each time its polling interval has gone by,
and once at the end. -/
def pairwise (qualifies : IdSet → Bool) (run : Run α) (sets : List IdSet) : Sweep α :=
  let all := pairs sets
  walk qualifies all.length run 0 [] all

end Sweep

/-- Sets by the pass that found them first, in the order of discovery. -/
abbrev Discoveries := Ledger IdSet Provenance

namespace Discoveries

def recordAll (provenance : Provenance) (found : List IdSet) (known : Discoveries) : Discoveries :=
  found.foldl (fun known key => known.recordNew key provenance) known

end Discoveries

/-- Whether a set's weight reaches a size. -/
def reaches (weight : String → Int) (size : Number) (s : IdSet) : Bool :=
  !(Number.int (s.weighted weight)).below size

/-- Both passes. A stopped run keeps what it has found so far. -/
def collectIntersections {α : Type} (qualifies : IdSet → Bool) (sets : List IdSet) (run : Run α) :
    Run α × Discoveries :=
  let outer := Sweep.pairwise qualifies run sets
  let found := Discoveries.recordAll .outer outer.seen .empty
  if outer.stopped then (outer.run.markAborted, found)
  else
    let inner := Sweep.pairwise qualifies outer.run (sortKeys outer.seen)
    let found := Discoveries.recordAll .inner inner.seen found
    (if inner.stopped then inner.run.markAborted else inner.run, found)

/-- A shared set with the members that hold it: their summed weight, and that times the size. -/
structure Intersection where
  properties : IdSet
  provenance : Provenance
  support : Int
  weight : Int
deriving DecidableEq

namespace Intersection

def toJson (i : Intersection) : Json :=
  .object [("properties", .ofStrings i.properties.toList), ("provenance", .str i.provenance.name),
    ("support", .int i.support), ("weight", .int i.weight), ("size", .ofNat i.properties.size)]

/-- The summed weight of the members that hold all of a set. -/
def supportOf (members : List Record) (key : IdSet) : Int :=
  total ((members.filter fun m => key.isSubset m.properties).map (·.weight))

def weigh (members : List Record) (key : IdSet) (provenance : Provenance) : Intersection :=
  let support := supportOf members key
  { properties := key, provenance, support, weight := support * key.size }

/-- The heavier one first; of equal weights the smaller key. -/
def ordered (a b : Intersection) : Bool :=
  b.weight < a.weight || (a.weight == b.weight && a.properties.keyAtMost b.properties)

/-- The limits of an extraction: a smallest size, and the band of usable properties. -/
structure Limits where
  minSize : Number
  band : Frequencies.Band

namespace Limits

def shareComplaints (field : String) (value : Json) : Except Failure (List Complaint) := do
  match ← value.measure with
  | none => return [.notShare field value]
  | some number =>
    return if (0 : Number).atMost number && number.atMost 1 then [] else [.notShare field value]

/-- Limits from values that have to be numbers in their ranges and in order. -/
def check (minIntersection minFrequency maxFrequency : Json) : Except Failure Limits := do
  let size ← Runtime.positiveComplaints "min_intersection" minIntersection
  let low ← shareComplaints "min_frequency" minFrequency
  let high ← shareComplaints "max_frequency" maxFrequency
  match size ++ low ++ high, minIntersection.number?, minFrequency.number?,
      maxFrequency.number? with
  | [], some minSize, some low, some high =>
    if high.below low then throw (.configurationError (.boundsReversed low high))
    else return { minSize, band := { low, high } }
  | complaints, _, _, _ => throw (.configuration complaints)

end Limits

/-- The usable properties of each member that has enough of them for any pair. -/
def usableSets (limits : Limits) (frequencies : Frequencies) (members : List Record) :
    List IdSet :=
  (members.map fun m => frequencies.filterSet limits.band m.properties).filter fun s =>
    !(Number.int s.size).below limits.minSize

/-- The shared sets of the members, heaviest first. -/
def extract {α : Type} (limits : Limits) (frequencies : Frequencies) (members : List Record)
    (run : Run α) : Run α × List Intersection :=
  let (run, found) := collectIntersections (reaches (fun _ => 1) limits.minSize)
    (usableSets limits frequencies members) run
  (run, (found.entries.map fun (key, provenance) => weigh members key provenance).mergeSort ordered)

end Intersection
end RoleMining
