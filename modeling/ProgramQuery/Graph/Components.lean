/-
  ProgramQuery.Graph.Components

  Strongly connected components.

  Two nodes belong together if each of them can be reached from the other.  A
  first search goes against the steps, and the order in which it finishes the
  nodes, the latest first, is the order in which they are taken up again.  From
  each of them that was not seen before, a second search goes along the steps
  without entering what was seen: it finds the component of the node.  So every
  component comes after those that it leads to.
-/

import ProgramQuery.Graph.Search

namespace ProgramQuery.Graph

variable {α : Type} [DecidableEq α]

/-- What can be reached from a node without entering what was seen. -/
def reachableUnseen (successors : α → List α) (fuel : Nat) (seen : List α) (n : α) : List α :=
  reachable (fun m => (successors m).filter (· ∉ seen)) fuel [n]

/-- What is found from the nodes of `order`, each time without what was seen before. -/
def collect (successors : α → List α) (fuel : Nat) (seen : List α) : List α → List (List α)
  | [] => []
  | n :: rest =>
    if n ∈ seen then
      collect successors fuel seen rest
    else
      let found := reachableUnseen successors fuel seen n
      found :: collect successors fuel (found ++ seen) rest

/-- The strongly connected components of a graph that is given in both directions, each
    after those that it leads to. -/
def components (successors predecessors : α → List α) (nodes : List α) : List (List α) :=
  collect successors nodes.length [] (Search.visitAll predecessors nodes.length nodes).finished

end ProgramQuery.Graph
