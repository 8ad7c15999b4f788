import RoleMining.Cluster.Similarity
import RoleMining.Frequency

/-!
# The similarity graph of a table

The product of a table with its transpose has an entry for every two rows that have a column in
common: how many columns they share. It is made row by row, from the rows that each column has. The
links are read off the entries, in whatever order these come, and are sorted by position.
-/
namespace RoleMining

/-- How often each element occurs in a list, in the order of first occurrence. -/
def tally {α : Type} [DecidableEq α] (xs : List α) : Ledger α Nat :=
  xs.foldl (fun counts x => counts.record x ((counts.find? x).getD 0 + 1)) .empty

/-- An entry of the product: two rows, and how many columns they share. -/
structure Overlap where
  first : Nat
  second : Nat
  shared : Nat
deriving DecidableEq

namespace AssignmentTable

/-- The positions of the ones in a list. -/
def onesOf (row : List Bool) : List Nat :=
  row.zipIdx.filterMap fun (held, pos) => if held then some pos else none

/-- The rows of every column, in ascending order. -/
def columns (t : AssignmentTable) : List (List Nat) :=
  (List.range t.properties.length).map fun column =>
    onesOf (t.rows.map fun row => row.getD column false)

/-- The entries of a row of the product. -/
def overlapsOf (columns : List (List Nat)) (i : Nat) (row : List Bool) : List Overlap :=
  (tally ((onesOf row).flatMap fun column => columns.getD column [])).entries.map
    fun (j, shared) => ⟨i, j, shared⟩

/-- The entries of the product of a table with its transpose. -/
def overlaps (t : AssignmentTable) : List Overlap :=
  let columns := t.columns
  t.rows.zipIdx.flatMap fun (row, i) => overlapsOf columns i row

/-- How many ones each row has. -/
def sums (t : AssignmentTable) : List Nat := t.rows.map fun row => (onesOf row).length

end AssignmentTable

namespace Graph

/-- The link of two rows that share columns, if there is one. Of the two entries for it only the one
above the diagonal counts. -/
def linkOf? (minSimilarity minShared : Number) (sums : List Nat) (o : Overlap) : Option Edge :=
  if o.second ≤ o.first then none
  else if (Number.int o.shared).below minShared then none
  else
    let all : Int := (sums.getD o.first 0 : Int) + sums.getD o.second 0 - o.shared
    let similarity := if 0 < all then Arithmetic.ratio o.shared all else 0
    if minSimilarity.atMost (.float similarity) then some ⟨o.first, o.second, similarity⟩ else none

/-- By the first position, then by the second. -/
def ordered (a b : Edge) : Bool :=
  a.first < b.first || (a.first == b.first && decide (a.second ≤ b.second))

/-- The graph of rows with these sums, from the entries of their product. -/
def ofOverlaps (minSimilarity minShared : Number) (sums : List Nat) (overlaps : List Overlap) :
    Graph where
  nodes := sums.length
  edges := (overlaps.filterMap (linkOf? minSimilarity minShared sums)).mergeSort ordered

/-- The similarity graph of a table, a node for each row. -/
def ofTable (minSimilarity minShared : Number) (t : AssignmentTable) : Graph :=
  ofOverlaps minSimilarity minShared t.sums t.overlaps

end Graph
end RoleMining
