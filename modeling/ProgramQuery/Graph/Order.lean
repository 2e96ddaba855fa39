/-
  ProgramQuery.Graph.Order

  Topological order.

  A graph keeps its nodes and edges in the order in which they were added, and
  this order decides which of several topological orders is given, and which
  node of a cycle is named if there is none.  The order is the reverse of the
  finishing order of a depth-first search that takes the last successor first;
  it is right exactly if no node stands before one of its predecessors.
-/

import ProgramQuery.Graph.Search

namespace ProgramQuery.Graph

variable {α : Type} [DecidableEq α]

/-- A graph with ordered nodes and edges. -/
structure OrderedGraph (α : Type) where
  nodes : List α := []
  edges : List (α × α) := []
  deriving Repr

namespace OrderedGraph

/-- Adds a node, unless it is there. -/
def addNode (g : OrderedGraph α) (n : α) : OrderedGraph α :=
  if n ∈ g.nodes then g else { g with nodes := g.nodes ++ [n] }

/-- Adds an edge with its two nodes, unless it is there. -/
def addEdge (g : OrderedGraph α) (a b : α) : OrderedGraph α :=
  let g := (g.addNode a).addNode b
  if (a, b) ∈ g.edges then g else { g with edges := g.edges ++ [(a, b)] }

/-- Adds a node and its edges to some successors. -/
def addAdjacency (g : OrderedGraph α) (n : α) (successors : List α) : OrderedGraph α :=
  successors.foldl (fun g s => g.addEdge n s) (g.addNode n)

/-- The graph with the given successor lists. -/
def ofAdjacency (lists : List (α × List α)) : OrderedGraph α :=
  lists.foldl (fun g (n, successors) => g.addAdjacency n successors) {}

/-- The successors of a node, in the order of their edges. -/
def successors (g : OrderedGraph α) (n : α) : List α :=
  g.edges.filterMap fun (a, b) => if a = n then some b else none

/-- The predecessors of a node other than itself, in the order of their edges. -/
def predecessors (g : OrderedGraph α) (n : α) : List α :=
  g.edges.filterMap fun (a, b) => if b = n ∧ a ≠ n then some a else none

/-- The search through the whole graph that takes the last successor first. -/
def search (g : OrderedGraph α) : Search α :=
  Search.visitAll (fun n => (g.successors n).reverse) g.nodes.length g.nodes

/-- The last predecessor of a node in `order` that does not stand before it,
    for the first node that has one; `seen` are the nodes passed already. -/
def misplaced? (g : OrderedGraph α) (seen : List α) : List α → Option α
  | [] => none
  | n :: rest =>
    match ((g.predecessors n).filter (· ∉ seen)).getLast? with
    | some p => some p
    | none => g.misplaced? (n :: seen) rest

/-- The nodes in topological order, or a node on a cycle: the first discovered
    node that is its own successor, or else a node that the order misplaces. -/
def topologicalOrder (g : OrderedGraph α) : Except α (List α) :=
  let search := g.search
  match search.discovered.reverse.find? (fun n => n ∈ g.successors n) with
  | some n => .error n
  | none =>
    match g.misplaced? [] search.finished with
    | some n => .error n
    | none => .ok search.finished

end OrderedGraph

end ProgramQuery.Graph
