import LatticeSurgery.Circuit
import Std.Data.HashSet

namespace LatticeSurgery

/-! The order in which the operations of a sequence have to stay. Nodes are
numbered from the last operation of the sequence to the first, and an edge leads
from a node, the parent, to a node of an earlier operation that it depends on.
Every node is kept with the list of its parents, whose numbers are smaller. -/

structure DependencyNode (α : Type) where
  operation : α
  parents : List Nat
deriving DecidableEq, Repr

structure DependencyGraph (α : Type) where
  nodes : List (DependencyNode α)
  /-- The nodes that no later operation depends on. -/
  terminals : List Nat
deriving DecidableEq, Repr

namespace DependencyGraph

variable {α : Type}

def empty : DependencyGraph α := ⟨[], []⟩

def size (graph : DependencyGraph α) : Nat := graph.nodes.length

/-- The node with a given number. Nodes are numbered by 32-bit words, so only the
last 32 bits of the number count. -/
def nodeNumber (number : Nat) : Nat := number % 4294967296

def operation? (graph : DependencyGraph α) (node : Nat) : Option α :=
  graph.nodes[node]?.map DependencyNode.operation

/-- The parents of a node in the order in which they were found. -/
def incoming (graph : DependencyGraph α) (node : Nat) : List Nat :=
  match graph.nodes[node]? with
  | some found => found.parents
  | none => []

def parents (graph : DependencyGraph α) (node : Nat) : List Nat :=
  (graph.incoming node).mergeSort

def children (graph : DependencyGraph α) (node : Nat) : List Nat :=
  graph.nodes.zipIdx.filterMap fun (candidate, index) =>
    if node ∈ candidate.parents then some index else none

def edgeCount (graph : DependencyGraph α) : Nat :=
  (graph.nodes.flatMap DependencyNode.parents).length

/-- The graph, when its nodes and its edges can be numbered. -/
def numbered (graph : DependencyGraph α) : Except Fault (DependencyGraph α) := do
  Storage.number graph.size
  Storage.number graph.edgeCount
  return graph

/-! Paths. Parents have smaller numbers, so one pass from the newest node to the
oldest finds all nodes above a given set of nodes. -/

def ancestors (graph : DependencyGraph α) (start : Std.HashSet Nat) : Std.HashSet Nat :=
  graph.nodes.zipIdx.foldr
    (fun (node, index) above =>
      if start.contains index || above.contains index then above.insertMany node.parents
      else above) ∅

def hasPath (graph : DependencyGraph α) (source target : Nat) : Bool :=
  target < graph.size && (source = target || (graph.ancestors {target}).contains source)

/-! Construction. The operation that is added comes before all others in the
sequence. The nodes that depend on it are looked for on the way up from the
frontier, leaf by leaf and breadth first, and the way ends at them. No node is
visited twice. Those that already reach another one of them are left out, and the
others become the parents. -/

/-- What the way up from the frontier has come to. -/
structure Ascent where
  visited : Std.HashSet Nat
  /-- The visited nodes that depend on the operation, in the order of their visits. -/
  found : List Nat

def isDependent (graph : DependencyGraph α) (depends : α → Bool) (node : Nat) : Bool :=
  (graph.operation? node).any depends

/-- Visit the nodes of the queue and those above them, where the latest parent comes
first. One unit of `fuel` is spent for every visit. -/
def ascend (graph : DependencyGraph α) (depends : α → Bool) : (fuel : Nat) →
    (queue : List Nat) → Ascent → Ascent
  | 0, _, ascent => ascent
  | fuel + 1, queue, ascent =>
      match queue.dropWhile ascent.visited.contains with
      | [] => ascent
      | node :: rest =>
          let visited := ascent.visited.insert node
          if graph.isDependent depends node then
            graph.ascend depends fuel rest ⟨visited, ascent.found ++ [node]⟩
          else
            graph.ascend depends fuel (rest ++ (graph.incoming node).reverse)
              ⟨visited, ascent.found⟩

def ascendFrom (graph : DependencyGraph α) (depends : α → Bool) (ascent : Ascent) (leaf : Nat) :
    Ascent :=
  let visited := ascent.visited.insert leaf
  if graph.isDependent depends leaf then ⟨visited, ascent.found ++ [leaf]⟩
  else graph.ascend depends graph.size (graph.incoming leaf).reverse ⟨visited, ascent.found⟩

/-- The nodes that end the way up from the frontier. -/
def candidates (graph : DependencyGraph α) (depends : α → Bool) (frontier : List Nat) :
    List Nat :=
  (frontier.foldl (graph.ascendFrom depends) ⟨∅, []⟩).found

def nearest (graph : DependencyGraph α) (found : List Nat) : List Nat :=
  let above := graph.ancestors (Std.HashSet.ofList found)
  found.filter fun node => !above.contains node

def addNode (graph : DependencyGraph α) (node : DependencyNode α) : DependencyGraph α :=
  ⟨graph.nodes ++ [node],
    if node.parents.isEmpty then graph.terminals ++ [graph.size] else graph.terminals⟩

end DependencyGraph

/-- A graph under construction, with the nodes that depend on nothing so far. -/
structure DependencyDraft (α : Type) where
  graph : DependencyGraph α
  frontier : List Nat
deriving DecidableEq, Repr

namespace DependencyDraft

variable {α : Type}

def empty : DependencyDraft α := ⟨.empty, []⟩

def addEarlier (depends : α → α → Bool) (draft : DependencyDraft α) (operation : α) :
    DependencyDraft α :=
  let candidates := draft.graph.candidates (depends operation) draft.frontier
  let kept := draft.frontier.filter fun leaf => !draft.graph.isDependent (depends operation) leaf
  ⟨draft.graph.addNode ⟨operation, draft.graph.nearest candidates⟩, kept ++ [draft.graph.size]⟩

def ofSequence (depends : α → α → Bool) : List α → DependencyDraft α
  | [] => empty
  | operation :: later => (ofSequence depends later).addEarlier depends operation

end DependencyDraft

namespace DependencyGraph

variable {α : Type}

/-- The graph of a sequence, where `depends earlier later` tells whether a later
operation has to stay behind an earlier one. -/
def ofSequence (depends : α → α → Bool) (operations : List α) : DependencyGraph α :=
  (DependencyDraft.ofSequence depends operations).graph

/-- The graph of the operations `0`, `1` and so on up to a number of them, which are
stored as positions. -/
def ofCount (depends : Nat → Nat → Bool) (count : Nat) : Except Fault (DependencyGraph Nat) := do
  Storage.reserve count Storage.positionSize
  (ofSequence depends (List.range count)).numbered

/-! Listings, breadth first from the terminals. -/

def walk (children : Nat → List Nat) : (fuel : Nat) → (queue seen : List Nat) →
    List (Nat × List Nat)
  | 0, _, _ => []
  | _, [], _ => []
  | fuel + 1, node :: queue, seen =>
      let next := children node
      let fresh := next.filter fun child => child ∉ seen
      (node, next) :: walk children fuel (queue ++ fresh) (seen ++ fresh)

def adjacency (graph : DependencyGraph α) : List (Nat × List Nat) :=
  walk graph.children graph.size graph.terminals graph.terminals

def edges (graph : DependencyGraph α) : List (Nat × Nat) :=
  graph.adjacency.flatMap fun (parent, children) => children.map fun child => (parent, child)

/-! A graph has a cycle when nodes remain after all nodes without a remaining
parent have been removed again and again. -/

def peel (graph : DependencyGraph α) (remaining : List Nat) : List Nat :=
  remaining.filter fun node => (graph.incoming node).any (· ∈ remaining)

def isAcyclic (graph : DependencyGraph α) : Bool :=
  (Nat.repeat graph.peel graph.size (List.range graph.size)).isEmpty

def validate (graph : DependencyGraph α) : Result CircuitError Unit :=
  if graph.isAcyclic then .ok () else Result.refuse .cyclicDependencies

/-! The dependencies of a circuit are between blocks that do not commute. The
operations of its graph are the positions of the blocks. -/

def relabel {β : Type} (label : α → β) (graph : DependencyGraph α) : DependencyGraph β :=
  ⟨graph.nodes.map fun node => ⟨label node.operation, node.parents⟩, graph.terminals⟩

def ofCircuit (circuit : Circuit) : DependencyGraph Nat :=
  (ofSequence (fun earlier later => !earlier.1.productsCommute later.1)
    circuit.blocks.zipIdx).relabel Prod.snd

/-- The edges as pairs of a later and an earlier operation. -/
def operationEdges (graph : DependencyGraph α) : List (α × α) :=
  graph.edges.filterMap fun (parent, child) => do
    return (← graph.operation? parent, ← graph.operation? child)

end DependencyGraph

end LatticeSurgery
