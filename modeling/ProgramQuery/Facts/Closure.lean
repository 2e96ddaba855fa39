/-
  ProgramQuery.Facts.Closure

  Closing a relation under transitivity.

  There are three ways.  `reachablePairs` goes through the strongly connected
  components, each after those that it leads to, and is right for every relation.
  `propagated` goes through the keys in a given order and gives each the values of
  its successors as known by then: that is the closure if successors come before
  their predecessors.  `acyclicPairs` finds such an order or, if there is none
  because of a cycle, goes by components; `ascendingPairs` takes the keys from the
  largest to the smallest, which suits relations that lead from lower to higher
  numbers.
-/

import ProgramQuery.Facts.PairStore
import ProgramQuery.Graph.Components
import ProgramQuery.Graph.Order

namespace ProgramQuery.Facts

open Std (ExtTreeMap ExtTreeSet)

namespace PairStore

variable {α : Type} [Ord α] [Std.TransOrd α]

/-- The values of a key, as a list. -/
def successors (s : PairStore α α) (k : α) : List α :=
  (s.image k).toList

/-- The keys of a value, as a list. -/
def predecessors (s : PairStore α α) (v : α) : List α :=
  (s.preimage v).toList

/-- All keys and values, in ascending order. -/
def nodes (s : PairStore α α) : List α :=
  (ExtTreeSet.ofList (s.keys ++ s.values)).toList

/-! ## Components -/

/-- The strongly connected components of the relation, each after those that it leads to. -/
def strongComponents [DecidableEq α] (s : PairStore α α) : List (List α) :=
  Graph.components s.successors s.predecessors s.nodes

/-- Whether the members of a component reach themselves: several always do, a single
    one if it is related to itself. -/
def isCyclic (s : PairStore α α) : List α → Bool
  | [] => false
  | [n] => s.contains n n
  | _ :: _ :: _ => true

/-- The place of the component of each node. -/
def places (components : List (List α)) : ExtTreeMap α Nat :=
  components.zipIdx.foldl (fun places (members, i) =>
    members.foldl (fun places n => places.insert n i) places) ∅

/-- What a step into a component gives: its members and what they reach.  There is no
    answer if it has not been found yet what they reach. -/
def entered? (components : List (List α)) (found : Array (ExtTreeSet α)) (target : Nat) :
    Option (ExtTreeSet α) := do
  let members ← components[target]?
  let further ← found[target]?
  some (.ofList members ∪ further)

/-- What the members of a component reach, given what has been found for the components
    before it: themselves if they are on a cycle, and whatever the steps that lead out of
    the component give. -/
def componentReach? (s : PairStore α α) (components : List (List α)) (place : ExtTreeMap α Nat)
    (found : Array (ExtTreeSet α)) (members : List α) : Option (ExtTreeSet α) :=
  (members.flatMap s.successors).foldlM (fun reach next =>
    let target := place.getD next 0
    if target = found.size then
      some reach
    else
      (entered? components found target).map (reach ∪ ·))
    (if s.isCyclic members then .ofList members else ∅)

/-- What each component reaches, found one after the other. -/
def componentReaches? (s : PairStore α α) (components : List (List α)) :
    Option (Array (ExtTreeSet α)) :=
  let place := places components
  components.foldlM (fun found members =>
    (s.componentReach? components place found members).map found.push) #[]

/-- The pairs found component by component; there is no answer if one is entered before it
    has been found what it reaches. -/
def componentPairs? (s : PairStore α α) (components : List (List α)) : Option (List (α × α)) :=
  (s.componentReaches? components).map fun found =>
    (components.zip found.toList).flatMap fun (members, reach) =>
      members.flatMap fun n => reach.toList.map (n, ·)

/-- All pairs joined by a path of one step or more. -/
def reachablePairs [DecidableEq α] (s : PairStore α α) : List (α × α) :=
  (s.componentPairs? s.strongComponents).getD []

/-! ## Propagation -/

/-- What a key reaches, given what has been found for others: its values and
    whatever is known of them. -/
def reachThrough (s : PairStore α α) (known : ExtTreeMap α (ExtTreeSet α)) (k : α) : ExtTreeSet α :=
  (s.successors k).foldl (fun reach next => reach.insert next ∪ known.getD next ∅) ∅

/-- What each node of `order` reaches, found one after the other. -/
def propagate (s : PairStore α α) (order : List α) : ExtTreeMap α (ExtTreeSet α) :=
  order.foldl (fun known k => known.insert k (s.reachThrough known k)) ∅

/-- The pairs found by propagation along `order`. -/
def propagated (s : PairStore α α) (order : List α) : List (α × α) :=
  (s.propagate order).toList.flatMap fun (k, reach) => reach.toList.map (k, ·)

/-- The relation as a graph. -/
def orderedGraph [DecidableEq α] (s : PairStore α α) : Graph.OrderedGraph α :=
  .ofAdjacency (s.keys.map fun k => (k, s.successors k))

/-- The closure by propagation in reverse topological order; by components if there is a cycle. -/
def acyclicPairs [DecidableEq α] (s : PairStore α α) : List (α × α) :=
  match s.orderedGraph.topologicalOrder with
  | .ok order => s.propagated order.reverse
  | .error _ => s.reachablePairs

/-- Propagation from the largest key down: the closure of a relation that leads upwards. -/
def ascendingPairs (s : PairStore α α) : List (α × α) :=
  s.propagated s.keys.reverse

end PairStore

end ProgramQuery.Facts
