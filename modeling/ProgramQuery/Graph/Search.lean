/-
  ProgramQuery.Graph.Search

  Depth-first search.

  A graph is given by its successor lists.  The search remembers the order in
  which it discovers nodes and the order in which it finishes them; a node is
  finished once all its successors have been visited.  Every level of the
  recursion discovers a node, so a fuel of the number of nodes is enough.

  `explore` is a loop with a stack that only remembers which nodes it has visited.
  Each round takes a node off the stack, and a node puts its successors there once,
  so there are no more rounds than starting nodes and edges together.
-/

namespace ProgramQuery.Graph

variable {α : Type} [DecidableEq α]

/-- What a search has seen: the nodes it has discovered and those it has
    finished, the latest first. -/
structure Search (α : Type) where
  discovered : List α := []
  finished : List α := []
  deriving Repr

namespace Search

/-- Visits a node and, unless it is known already, all that follows it. -/
def visit (successors : α → List α) : Nat → Search α → α → Search α
  | 0, search, _ => search
  | fuel + 1, search, n =>
    if n ∈ search.discovered then
      search
    else
      let inner := (successors n).foldl (visit successors fuel)
        { search with discovered := n :: search.discovered }
      { inner with finished := n :: inner.finished }

/-- Visits some nodes one after the other. -/
def visitAll (successors : α → List α) (fuel : Nat) (nodes : List α) : Search α :=
  nodes.foldl (visit successors fuel) {}

end Search

/-- The nodes that can be reached from some starting nodes, these included. -/
def reachable (successors : α → List α) (fuel : Nat) (starts : List α) : List α :=
  (Search.visitAll successors fuel starts).discovered

/-- Takes nodes off a stack, the first of the list on top, and adds those that are new to the
    visited ones, the latest first; the successors of a new node go onto the stack. -/
def explore (successors : α → List α) : Nat → List α → List α → List α
  | 0, visited, _ => visited
  | _ + 1, visited, [] => visited
  | rounds + 1, visited, n :: stack =>
    if n ∈ visited then
      explore successors rounds visited stack
    else
      explore successors rounds (n :: visited) ((successors n).reverse ++ stack)

end ProgramQuery.Graph
