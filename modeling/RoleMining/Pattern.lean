import RoleMining.Chunk.Aggregate
import RoleMining.Intersection
import RoleMining.Settings.Policy

/-!
# Patterns

A pattern is a candidate role or user group: a body of identifiers that many others have in common.
The others are its support. Every chunk's property set and every intersection of such sets is a
candidate support; its body is made of the members of all chunks that have the whole support. Of two
supports with one body the heavier counts. Identifiers count by their weights throughout.
-/
namespace RoleMining

structure Pattern where
  properties : IdSet
  members : IdSet
  support : Int
  score : Binary64
  mode : Mode
deriving DecidableEq

namespace Pattern

def toJson (p : Pattern) : Json :=
  .object [("properties", .ofStrings p.properties.toList), ("members", .ofStrings p.members.toList),
    ("support", .int p.support), ("score", .float p.score), ("mode", .str p.mode.name)]

/-- The weights of the chunks' members; a later chunk has the last word. -/
def bodyWeights (chunks : List Chunk) : Ledger String Int :=
  chunks.foldl (fun weights c => weights.update c.memberWeightMap) .empty

/-- The weights of the chunks' properties; a later chunk has the last word. -/
def supportWeights (chunks : List Chunk) : Ledger String Int :=
  chunks.foldl (fun weights c => weights.update c.propertyWeightMap) .empty

/-- The chunks whose frequency lies in the band. -/
def surviving (band : Frequencies.Band) (population : Int) (chunks : List Chunk) :
    Except Failure (List Chunk) :=
  chunks.filterM fun c => do
    let frequency := Number.float (← c.frequency population)
    return band.low.atMost frequency && frequency.atMost band.high

/-- The members of a chunk beside its property set. -/
abbrev Holding := IdSet × List String

def holdings (chunks : List Chunk) : List Holding := chunks.map fun c => (c.propertySet, c.members)

/-- The members of all chunks that have the whole support. -/
def bodyOf (holdings : List Holding) (support : IdSet) : IdSet :=
  holdings.foldl
    (fun (body : IdSet) (properties, members) =>
      if support.isSubset properties then body.addAll members else body) .empty

/-- Bodies with the best support found so far. -/
abbrev Findings := Ledger IdSet IdSet

/-- Enter a support for its body; a known body takes it only when it is strictly heavier. -/
def Findings.enter (weight : String → Int) (findings : Findings) (body support : IdSet) :
    Findings :=
  match findings.find? body with
  | none => findings.record body support
  | some current =>
    if current.weighted weight < support.weighted weight then findings.record body support
    else findings

/-- What is constant while candidates are resolved. -/
structure Search where
  bodyOf : IdSet → IdSet
  isBody : IdSet → Bool
  supportWeight : String → Int

/-- Resolve the candidates that are left, after `done` of them. -/
def Search.resolve {α : Type} (search : Search) (total : Nat) (run : Run α) (done : Nat)
    (findings : Findings) : List IdSet → Run α × Findings
  | [] =>
    let run := run.checkpoint ⟨total, total, true⟩
    (if run.cancelled then run.markAborted else run, findings)
  | support :: rest =>
    let due := run.isDue (done + 1)
    let run := if due then run.checkpoint ⟨done + 1, total, false⟩ else run
    if due && run.cancelled then (run.markAborted, findings)
    else
      let body := search.bodyOf support
      let findings :=
        if search.isBody body then findings.enter search.supportWeight body support else findings
      search.resolve total run (done + 1) findings rest

/-- A finding with its numbers. -/
def ofFinding (mode : Mode) (bodyWeight supportWeight : String → Int) (body support : IdSet) :
    Except Failure Pattern :=
  let weight := support.weighted supportWeight
  match Binary64.ofInt? (body.weighted bodyWeight * weight) with
  | some score => .ok { properties := body, members := support, support := weight, score, mode }
  | none => .error .numberTooLarge

/-- The larger support first; of equal supports the smaller body. -/
def ordered (a b : Pattern) : Bool :=
  b.support < a.support || (a.support == b.support && a.properties.keyAtMost b.properties)

/-- The patterns of some chunks. -/
def detect {α : Type} (mode : Mode) (thresholds : Thresholds) (chunks : List Chunk)
    (run : Run α) : Except Failure (Run α × List Pattern) := do
  if chunks.isEmpty then return (run, [])
  let bodyWeight := weightIn (bodyWeights chunks).find?
  let supports := supportWeights chunks
  let supportWeight := weightIn supports.find?
  let kept ← surviving thresholds.band (total supports.values) chunks
  let isSupport := reaches supportWeight thresholds.minSupport
  let held := holdings kept
  let eligible := (held.map (·.1)).filter isSupport
  let (run, found) := collectIntersections isSupport eligible run
  let candidates := sortKeys (eligible ++ found.keys)
  let search : Search :=
    { bodyOf := bodyOf held
      isBody := reaches bodyWeight thresholds.minIntersection
      supportWeight }
  let (run, findings) :=
    if run.cancelled then (run.markAborted, Ledger.empty)
    else search.resolve candidates.length run 0 .empty candidates
  let patterns ← findings.entries.mapM fun (body, support) =>
    ofFinding mode bodyWeight supportWeight body support
  return (run, patterns.mergeSort ordered)

/-- The best score; zero when there is no pattern. -/
def reductionMetric (patterns : List Pattern) : Binary64 :=
  match patterns with
  | [] => 0
  | first :: rest =>
    rest.foldl (fun best p => if best.below p.score then p.score else best) first.score

end Pattern
end RoleMining
