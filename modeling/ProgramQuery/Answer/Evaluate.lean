/-
  ProgramQuery.Answer.Evaluate

  Answering queries.

  The tables of the clauses are joined group by group.  If no group is empty the
  query holds, and its answers are the rows of the groups that the result needs,
  completed by the domains of the selected synonyms that no clause binds.
-/

import ProgramQuery.Answer.Clause
import ProgramQuery.Answer.Order
import ProgramQuery.Answer.Plan
import ProgramQuery.Query.Typing

namespace ProgramQuery

/-- How queries are evaluated: `optimise` plans the clauses instead of taking them as
    they are written, `parallel` evaluates all groups even if one is empty, and `finder` is
    how a plan finds the clauses that are connected. -/
structure Strategy where
  optimise : Bool := true
  parallel : Bool := true
  finder : Graph.ClassFinder := .relabelling

/-- What the evaluation of a query gives: its answers in order, how many groups and
    clauses were planned, and the size of the largest table of a group. -/
structure Evaluation where
  answers : List String
  groups : Nat
  clauses : Nat
  maxRows : Nat
  deriving DecidableEq, Repr

namespace FactBase

/-! ## Groups -/

/-- Joins the tables of some clauses to a table, as long as this has rows. -/
def joinClauses (b : FactBase) (table : Table) : List Clause → Except ClauseFault Table
  | [] => .ok table
  | c :: rest => do
    let more ← b.clauseTable c
    let joined := table.join more
    if joined.isEmpty then .ok joined else b.joinClauses joined rest

/-- The table of a group. -/
def groupTable (b : FactBase) (g : ClauseGroup) : Except ClauseFault Table :=
  b.joinClauses .unit g.clauses

/-- The tables of some groups, up to the first empty one. -/
def tablesUntilEmpty (b : FactBase) : List ClauseGroup → Except ClauseFault (List Table)
  | [] => .ok []
  | g :: rest => do
    let table ← b.groupTable g
    if table.isEmpty then
      .ok [table]
    else do
      let more ← b.tablesUntilEmpty rest
      .ok (table :: more)

/-- The tables of the groups. -/
def groupTables (b : FactBase) (strategy : Strategy) (groups : List ClauseGroup) :
    Except ClauseFault (List Table) :=
  if strategy.parallel && 1 < groups.length then
    groups.mapM b.groupTable
  else
    b.tablesUntilEmpty groups

/-! ## Results -/

/-- An element of an answer, given the columns and values of a row. -/
def elementText (b : FactBase) (columns : List Synonym) (row : Row) (e : Element) :
    Option String := do
  let i ← Table.position? columns e.base
  let v ← row[i]?
  match e with
  | .synonym _ => some v.text
  | .attr a => b.attrValue a v

/-- The answer of a row: its elements, separated by spaces. -/
def rowText (b : FactBase) (columns : List Synonym) (elements : List Element) (row : Row) :
    Option String :=
  (elements.mapM (b.elementText columns row)).map (String.intercalate " ")

/-- The distinct answers of the rows of a table, in order. -/
def tupleAnswers (b : FactBase) (q : Query) (table : Table) : List String :=
  let unbound := q.selected.filter (!table.columns.contains ·)
  let completed := (unbound.map b.domainTable).foldl Table.join table
  let rows := (completed.project q.selected).rowList
  Answer.sort (Std.ExtTreeSet.ofList
    (rows.filterMap (b.rowText q.selected q.selection.elements))).toList

/-- The answers of a query, given its groups and their tables. -/
def answers (b : FactBase) (q : Query) (groups : List ClauseGroup) (tables : List Table) :
    List String :=
  let holds := tables.all (!·.isEmpty)
  match q.selection with
  | .boolean => [if holds then "TRUE" else "FALSE"]
  | .tuple _ =>
    if holds then
      let needed := (groups.zip tables).filter (·.1.selected)
      b.tupleAnswers q (.joinAll (needed.map Prod.snd))
    else
      []

/-! ## Queries -/

/-- The evaluation of a query that cannot be satisfied. -/
def refuted (q : Query) : Evaluation :=
  ⟨if q.isBoolean then ["FALSE"] else [], 0, 0, 0⟩

/-- Evaluates a query. -/
def evaluate (b : FactBase) (strategy : Strategy) (q : Query) : Except ClauseFault Evaluation :=
  if strategy.optimise && q.contradicts then
    .ok (refuted q)
  else do
    let groups := if strategy.optimise then q.plan strategy.finder else q.unplanned
    let tables ← b.groupTables strategy groups
    .ok {
      answers := b.answers q groups tables
      groups := groups.length
      clauses := (groups.map (·.clauses.length)).foldl (· + ·) 0
      maxRows := (tables.map Table.size).foldl max 0 }

/-- The answers to a query text; a text that is refused has one answer, which says why. -/
def answer (b : FactBase) (strategy : Strategy) (text : String) : List String :=
  match Query.read text with
  | .error fault => [fault.kind]
  | .ok q =>
    match b.evaluate strategy q with
    | .ok evaluation => evaluation.answers
    | .error _ => ["SemanticError"]

end FactBase

end ProgramQuery
