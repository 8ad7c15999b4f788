import RoleMining.Arithmetic
import RoleMining.IdSet
import RoleMining.Number

/-!
# The similarity graph

Two nodes are linked when their property sets share enough properties, and the shared ones are a
large enough part of all: the Jaccard similarity, which is the weight of the link. Here every two
sets are compared; the same graph is read off a table without that.
-/
namespace RoleMining

structure Edge where
  first : Nat
  second : Nat
  similarity : Binary64
deriving DecidableEq

structure Graph where
  nodes : Nat
  edges : List Edge

namespace Graph

/-- The similarity of two sets. -/
def jaccard (s t : IdSet) : Binary64 :=
  let shared := (s.inter t).size
  let all : Int := (s.size : Int) + t.size - shared
  if 0 < all then Arithmetic.ratio shared all else 0

/-- The link of two sets at their positions, if there is one. -/
def link? (minSimilarity minShared : Number) (i j : Nat) (s t : IdSet) : Option Edge :=
  let shared := (s.inter t).size
  let similarity := jaccard s t
  if shared = 0 then none
  else if (Number.int shared).below minShared then none
  else if minSimilarity.atMost (.float similarity) then some ⟨i, j, similarity⟩
  else none

/-- The links of a set at a position with the later sets. -/
def linksFrom (minSimilarity minShared : Number) (i : Nat) (s : IdSet) (later : List IdSet) :
    List Edge :=
  later.zipIdx.filterMap fun (t, offset) =>
    link? minSimilarity minShared i (i + 1 + offset) s t

/-- All links, by position. -/
def links (minSimilarity minShared : Number) : Nat → List IdSet → List Edge
  | _, [] => []
  | i, s :: later =>
    linksFrom minSimilarity minShared i s later ++ links minSimilarity minShared (i + 1) later

/-- The similarity graph of property sets, a node for each. -/
def ofSets (minSimilarity minShared : Number) (sets : List IdSet) : Graph :=
  { nodes := sets.length, edges := links minSimilarity minShared 0 sets }

def hasEdgeAt (g : Graph) (node : Nat) : Bool :=
  g.edges.any fun e => e.first == node || e.second == node

/-- The nodes without a link. -/
def isolated (g : Graph) : List Nat := (List.range g.nodes).filter fun node => !g.hasEdgeAt node

end Graph
end RoleMining
