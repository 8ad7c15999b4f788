import RoleMining.Cluster.Similarity
import RoleMining.Json.Basic
import RoleMining.Failure
import RoleMining.Total
import RoleMining.Word

/-!
# Communities

A partition of a graph's nodes into communities is as good as its links inside communities, less a
charge for every two nodes of one community: the resolution. Two nodes of a community gain the
weight of their links less the resolution, and components are divided one by one.

A component is first divided by moving single nodes and uniting blocks as long as something is
gained. In a small component a search then finds the best division of all: it adds node after node
to the blocks made so far, and gives up a branch that could not pass the best division known even if
every gain still open were won.
-/
namespace RoleMining

/-- A division of nodes into communities. -/
structure Labelling where
  /-- The community of a node. -/
  label : Nat → Nat

/-- A way to find communities, from a graph, a resolution and a seed for chance. -/
abbrev CommunityFinder := Graph → Number → Json → Labelling

namespace Community

/-- The seed has to be a machine integer, or absent. -/
def checkSeed : Json → Except Failure Unit
  | .null => .ok ()
  | .bool _ => .ok ()
  | .int n => if Word.isSigned n then .ok () else .error .numberTooLarge
  | _ => .error .wrongType

def resolutionValue : Number → Rat
  | .int n => n
  | .float x => x.value

/-- The weight of all links inside communities less the charge for their pairs. -/
def quality (g : Graph) (resolution : Number) (l : Labelling) : Rat :=
  let inside := g.edges.filter fun e => l.label e.first == l.label e.second
  let sizes := (List.range g.nodes).map fun node =>
    ((List.range node).filter fun other => l.label other == l.label node).length
  total (inside.map fun e => e.similarity.value) - resolutionValue resolution * (total sizes : Nat)

/-- The groups of nodes that links connect; a link joins the groups of its ends. -/
def components (g : Graph) : List (List Nat) :=
  g.edges.foldl
    (fun groups e =>
      let touches (group : List Nat) := group.contains e.first || group.contains e.second
      (groups.filter touches).flatten :: groups.filter fun group => !touches group)
    ((List.range g.nodes).map fun node => [node])

/-- What every two nodes gain by being in one community. -/
structure Gains where
  between : Nat → Nat → Rat

/-- The weight of the links between two nodes less the resolution. -/
def gain (g : Graph) (resolution : Rat) (a b : Nat) : Rat :=
  let links := g.edges.filter fun e =>
    (e.first == a && e.second == b) || (e.first == b && e.second == a)
  total (links.map fun e => e.similarity.value) - resolution

/-- The gains between the nodes of a component, looked up in a table. -/
def Gains.ofComponent (g : Graph) (resolution : Rat) (nodes : List Nat) : Gains :=
  let table := nodes.map fun a => (a, nodes.map fun b => (b, gain g resolution a b))
  ⟨fun a b => ((table.lookup a).bind fun row => row.lookup b).getD 0⟩

/-- What a node gains by joining a block. -/
def Gains.joining (gains : Gains) (node : Nat) (block : List Nat) : Rat :=
  total (block.map (gains.between node))

/-- A partition under construction: its value and its blocks. -/
structure Draft where
  value : Rat
  blocks : List (List Nat)

/-- Blocks with one of them replaced by itself and a new node. -/
def place (node : Nat) : List (List Nat) → List (List (List Nat))
  | [] => []
  | block :: rest =>
    ((node :: block) :: rest) :: (place node rest).map fun others => block :: others

/-- The ways to add a node to blocks, each with what is gained. -/
def placings (gains : Gains) (node : Nat) (blocks : List (List Nat)) :
    List (List (List Nat) × Rat) :=
  ([node] :: blocks, 0) :: (place node blocks).zip (blocks.map (gains.joining node))

/-- The best partition that extends `draft` to the remaining nodes, if it passes `best`. A node
comes with the sum of all gains that are open before it is placed. -/
def improve (gains : Gains) : List (Nat × Rat) → Draft → Draft → Draft
  | [], draft, best => if best.value < draft.value then draft else best
  | (node, slack) :: rest, draft, best =>
    if draft.value + slack ≤ best.value then best
    else
      let options := (placings gains node draft.blocks).mergeSort fun a b => b.2 ≤ a.2
      options.foldl
        (fun best (blocks, won) => improve gains rest ⟨draft.value + won, blocks⟩ best) best

/-- Each node with the sum of the positive gains that it and the later nodes may still win. -/
def withOpenGains (gains : Gains) (earlier : List Nat) : List Nat → List (Nat × Rat)
  | [] => []
  | node :: rest =>
    let later := withOpenGains gains (node :: earlier) rest
    let own := total ((earlier.map (gains.between node)).filter fun won => decide (0 < won))
    (node, own + ((later.head?.map (·.2)).getD 0)) :: later

/-- Up to so many nodes a component is searched in full. -/
def searchLimit : Nat := 12

/-- Move single nodes to the block where they gain most, as long as something is gained. -/
def settle (gains : Gains) (nodes : List Nat) : Nat → List (List Nat) → List (List Nat)
  | 0, blocks => blocks
  | fuel + 1, blocks =>
    let moved := nodes.foldl
      (fun blocks node =>
        let others := (blocks.map fun block => block.filter (· != node)).filter (!·.isEmpty)
        ((placings gains node others).foldl
          (fun best option => if best.2 < option.2 then option else best)
          ([node] :: others, 0)).1)
      blocks
    settle gains nodes fuel moved

/-- The ways to make two blocks one, each with what is gained. -/
def unions (gains : Gains) : List (List Nat) → List (List (List Nat) × Rat)
  | [] => []
  | block :: rest =>
    let withLater := rest.map fun other =>
      ((block ++ other) :: rest.filter (· != other),
        total (block.map fun node => gains.joining node other))
    withLater ++ (unions gains rest).map fun (blocks, won) => (block :: blocks, won)

/-- Unite the two blocks that gain most, as long as something is gained. -/
def unite (gains : Gains) : Nat → List (List Nat) → List (List Nat)
  | 0, blocks => blocks
  | fuel + 1, blocks =>
    let best := (unions gains blocks).foldl
      (fun best option => if best.2 < option.2 then option else best) (blocks, 0)
    if best.2 ≤ 0 then blocks else unite gains fuel best.1

/-- Blocks that neither a single node nor a union can better, as far as the rounds reach. -/
def refine (gains : Gains) (nodes : List Nat) : Nat → List (List Nat) → List (List Nat)
  | 0, blocks => blocks
  | rounds + 1, blocks =>
    refine gains nodes rounds (unite gains nodes.length (settle gains nodes nodes.length blocks))

/-- Rounds of moves and unions before a component is searched, or instead of it. -/
def rounds : Nat := 3

/-- Blocks with their value. -/
def Draft.ofBlocks (gains : Gains) (blocks : List (List Nat)) : Draft where
  value := total (blocks.map fun block =>
    total (block.map fun node => gains.joining node (block.filter (· < node))))
  blocks

/-- The best blocks of one component; a small one is searched in full, from blocks that are good
already. -/
def bestBlocks (g : Graph) (resolution : Rat) (nodes : List Nat) : List (List Nat) :=
  match nodes with
  | [] => []
  | [node] => [[node]]
  | _ =>
    let gains := Gains.ofComponent g resolution nodes
    let good := refine gains nodes rounds (nodes.map fun node => [node])
    if nodes.length ≤ searchLimit then
      (improve gains (withOpenGains gains [] nodes) ⟨0, []⟩ (.ofBlocks gains good)).blocks
    else good

/-- Communities of highest quality, each named by its smallest node. -/
def best : CommunityFinder := fun g resolution _ =>
  let blocks := (components g).flatMap fun nodes => bestBlocks g (resolutionValue resolution) nodes
  let table := blocks.flatMap fun block =>
    let label := block.min?.getD 0
    block.map fun node => (node, label)
  ⟨fun node => (table.lookup node).getD node⟩

/-- The nodes of each community, communities in ascending order. -/
def groups (nodes : Nat) (l : Labelling) : List (List Nat) :=
  let labels := ((List.range nodes).map l.label).eraseDups.mergeSort
  labels.map fun label => (List.range nodes).filter fun node => l.label node == label

end Community
end RoleMining
