/-
  ProgramQuery.Answer.Plan

  The order in which the clauses of a query are evaluated.

  Clauses that share a synonym, directly or through others, form a group, and
  groups can be evaluated on their own.  To find them each synonym is linked to the
  first clause that has it.  Groups without synonyms come first, then
  those that the result does not need, then the others.  In a group the cheapest
  clause comes first, and each later one is the cheapest that shares a synonym
  with an earlier one.
-/

import Std.Data.ExtTreeMap
import ProgramQuery.Graph.Classes
import ProgramQuery.Query.Basic
import ProgramQuery.Text.Name

namespace ProgramQuery

open Std (ExtTreeMap)

namespace Clause

/-- The names of the synonyms in a clause. -/
def names (c : Clause) : List String :=
  c.synonyms.map Synonym.name

/-- Whether two clauses share the name of a synonym. -/
def touches (c d : Clause) : Bool :=
  c.names.any (d.names.contains ·)

/-- What a clause is expected to cost: negations last, then by the number of
    synonyms, comparisons before other clauses. -/
structure Cost where
  negated : Bool
  synonyms : Nat
  kind : Nat
  deriving DecidableEq, Repr

/-- The cost of a clause. -/
def cost (c : Clause) : Cost where
  negated := c.negated
  synonyms := c.synonyms.length
  kind := match c.condition with
    | .compare .. => 0
    | _ => 1

/-- Whether one cost is smaller than another. -/
def Cost.lt (a b : Cost) : Bool :=
  if a.negated != b.negated then b.negated
  else if a.synonyms != b.synonyms then a.synonyms < b.synonyms
  else a.kind < b.kind

/-- The first of the cheapest clauses. -/
def cheapest? : List Clause → Option Clause
  | [] => none
  | c :: rest =>
    match cheapest? rest with
    | none => some c
    | some d => if d.cost.lt c.cost then some d else some c

end Clause

/-- Clauses that are evaluated together, in this order. -/
structure ClauseGroup where
  clauses : List Clause
  synonyms : NameSet
  selected : Bool

namespace Plan

/-! ## Components -/

/-- What is known of the clauses whose synonyms have been looked at: which of them were put
    together, and for each name of a synonym the place of the first clause with it. -/
structure Links (n : Nat) where
  unions : Graph.Unions n := []
  owner : ExtTreeMap String (Fin n) := ∅

namespace Links

variable {n : Nat}

/-- Adds the name of a synonym in the clause at a place. -/
def add (l : Links n) (i : Fin n) (name : String) : Links n :=
  match l.owner[name]? with
  | some j => { l with unions := l.unions ++ [(i, j)] }
  | none => { l with owner := l.owner.insert name i }

/-- Adds names one after the other, each with the place of its clause. -/
def addAll (l : Links n) (found : List (Fin n × String)) : Links n :=
  found.foldl (fun l x => l.add x.1 x.2) l

end Links

/-- The names in some clauses, each with the place of its clause. -/
def incidences (clauses : List Clause) : List (Fin clauses.length × String) :=
  (List.finRange clauses.length).flatMap fun i => (clauses.get i).names.map (i, ·)

/-- The unions that connect clauses by the names that they share. -/
def unions (clauses : List Clause) : Graph.Unions clauses.length :=
  (Links.addAll {} (incidences clauses)).unions

/-- The connected components of the clauses, by their first clauses. -/
def components (finder : Graph.ClassFinder) (clauses : List Clause) : List (List Clause) :=
  let places := List.finRange clauses.length
  let find := finder.find (unions clauses)
  (places.map find).eraseDups.map fun root =>
    (places.filter (find · = root)).map clauses.get

/-! ## Arrangement -/

/-- The pending clauses that touch a placed one, or all if none is placed. -/
def candidates (placed pending : List Clause) : List Clause :=
  pending.filter fun c => placed.isEmpty || placed.any c.touches

/-- The clause that comes after the placed ones: the cheapest candidate, or the cheapest of
    all if there is no candidate. -/
def next? (placed pending : List Clause) : Option Clause :=
  (Clause.cheapest? (candidates placed pending)).or (Clause.cheapest? pending)

/-- The placed clauses, followed by the pending ones in the order of evaluation. -/
def arrangeFrom : Nat → List Clause → List Clause → List Clause
  | 0, placed, _ => placed
  | fuel + 1, placed, pending =>
    match next? placed pending with
    | none => placed
    | some c => arrangeFrom fuel (placed ++ [c]) (pending.erase c)

/-- The clauses of a group in the order of evaluation. -/
def arrange (clauses : List Clause) : List Clause :=
  arrangeFrom clauses.length [] clauses

/-! ## Groups -/

/-- The group of some connected clauses. -/
def group (selected : List String) (clauses : List Clause) : ClauseGroup :=
  let names := clauses.flatMap Clause.names
  { clauses := arrange clauses
    synonyms := .ofList names
    selected := names.any (selected.contains ·) }

/-- Groups without synonyms first, those that the result needs last. -/
def rank (g : ClauseGroup) : Nat :=
  if g.synonyms.isEmpty then 0 else if g.selected then 2 else 1

end Plan

namespace Query

/-- The groups of the distinct clauses of a query, in the order of evaluation. -/
def plan (q : Query) (finder : Graph.ClassFinder) : List ClauseGroup :=
  ((Plan.components finder q.clauses.eraseDups).map
    (Plan.group (q.selected.map Synonym.name))).mergeSort fun g h => Plan.rank g ≤ Plan.rank h

/-- All clauses of a query as one group, as they are written. -/
def unplanned (q : Query) : List ClauseGroup :=
  if q.clauses.isEmpty then
    []
  else
    [{ clauses := q.clauses
       synonyms := .ofList (q.clauses.flatMap Clause.names)
       selected := true }]

/-- Whether a query asks for something and for its negation. -/
def contradicts (q : Query) : Bool :=
  q.clauses.any fun c =>
    c.negated && q.clauses.any fun d => !d.negated && d.condition == c.condition

end Query

end ProgramQuery
