import RoleMining.Arithmetic
import RoleMining.Record

/-!
# Frequencies

The frequency of a property is the weighted share of the population that holds it. A band keeps the
properties whose frequency lies between two bounds, the bounds included.
-/
namespace RoleMining

abbrev Frequencies := Ledger String Number

/-- A weight as a double-precision number. -/
def doubleWeight (r : Record) : Except Failure Binary64 :=
  match Binary64.ofInt? r.weight with
  | some x => .ok x
  | none => .error .numberTooLarge

namespace Frequencies

/-- The frequency of every held property. The weights of the population are added in pairs of sums,
those of the holders from left to right. No records have no frequencies. -/
def ofRecords (records : List Record) : Except Failure Frequencies := do
  if records.isEmpty then return .empty
  let weighted ← records.mapM fun r => return (r, ← doubleWeight r)
  let population := Arithmetic.pairwiseSum (weighted.map (·.2))
  if !population.isFinite then throw .numberTooLarge
  return .ofList ((heldProperties records).toList.map fun property =>
    let held :=
      Arithmetic.sum ((weighted.filter fun rw => property ∈ rw.1.properties).map (·.2))
    (property, .float (held / population)))

/-- The lower and upper bound of a band. -/
structure Band where
  low : Number
  high : Number

def Band.keeps (band : Band) (frequency : Number) : Bool :=
  !(frequency.below band.low || band.high.below frequency)

/-- The properties of a set that the band keeps; a property without a frequency is dropped. -/
def filterSet (frequencies : Frequencies) (band : Band) (properties : IdSet) : IdSet :=
  properties.filter fun property =>
    match frequencies.find? property with
    | some frequency => band.keeps frequency
    | none => false

/-- How many properties are kept, too rare and too common. -/
structure BandSummary where
  kept : Int
  tooRare : Nat
  tooCommon : Nat
deriving DecidableEq, Repr

def summary (frequencies : Frequencies) (band : Band) : BandSummary :=
  let tooRare := (frequencies.values.filter (·.below band.low)).length
  let tooCommon := (frequencies.values.filter band.high.below).length
  { kept := frequencies.size - tooRare - tooCommon, tooRare, tooCommon }

end Frequencies

/-- The assignments as a table of zeros and ones, a row for each record. -/
structure AssignmentTable where
  oids : List String
  properties : List String
  rows : List (List Bool)

def AssignmentTable.ofRecords (records : List Record) : AssignmentTable :=
  let properties := (heldProperties records).toList
  { oids := records.map (·.oid)
    properties
    rows := records.map fun r => properties.map fun property => decide (property ∈ r.properties) }

end RoleMining
