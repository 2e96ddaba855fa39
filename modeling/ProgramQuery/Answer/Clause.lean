/-
  ProgramQuery.Answer.Clause

  The table of a single clause.

  The table of a condition has the synonyms of the condition as columns and a row
  for each of their bindings that satisfies it.  A negated clause has the
  bindings from the domains of its synonyms that do not.
-/

import ProgramQuery.Answer.Domain
import ProgramQuery.Text.Quoted

namespace ProgramQuery

open Facts

/-! ## Faults -/

/-- An argument that a clause cannot take. -/
inductive BadArgument where
  | ident (name : String)
  | integer (n : StatementNumber)
  | spec (mode : MatchMode) (rpn : List String)
  | entity (e : Entity)
  | variable (n : StatementNumber)
  deriving DecidableEq, Repr

/-- An argument as a message shows it. -/
def BadArgument.text : BadArgument → String
  | .ident name => "Ident(" ++ Text.quoted name ++ ")"
  | .integer n => "Integer(" ++ toString n ++ ")"
  | .spec .whole rpn => "Exact(" ++ Text.quotedList rpn ++ ")"
  | .spec .part rpn => "Partial(" ++ Text.quotedList rpn ++ ")"
  | .entity e => e.keyword
  | .variable n => toString n

/-- Where an argument was refused. -/
inductive ClauseKind where
  | relationship (r : Relationship)
  | pattern
  deriving DecidableEq, Repr

/-- The name of the place. -/
def ClauseKind.text : ClauseKind → String
  | .relationship r => r.name.text
  | .pattern => "pattern"

/-- A clause that cannot be evaluated, because of one of its arguments. -/
structure ClauseFault where
  kind : ClauseKind
  argument : BadArgument
  deriving DecidableEq, Repr

/-- The wording of a fault. -/
def ClauseFault.message (f : ClauseFault) : String :=
  f.kind.text ++ " does not accept " ++ f.argument.text ++ " as an argument"

/-! ## Relationships -/

/-- The members of stored pairs: how they are values, and which arguments name them. -/
class Member (α : Type) where
  value : α → Value
  literal? : Ref → Option α

instance : Member StatementNumber where
  value := .number
  literal?
    | .integer n => some n
    | _ => none

instance : Member String where
  value := .name
  literal?
    | .ident name => some name
    | _ => none

/-- An argument in a place for members of type `α`. -/
inductive Argument (α : Type) where
  | synonym (s : Synonym)
  | literal (a : α)
  | wildcard
  deriving DecidableEq, Repr

/-- An argument, which has to fit its place. -/
def Argument.ofRef {α : Type} [Member α] (r : Relationship) : Ref → Except ClauseFault (Argument α)
  | .synonym s => .ok (.synonym s)
  | .wildcard => .ok .wildcard
  | .ident name =>
    match Member.literal? (.ident name) with
    | some a => .ok (.literal a)
    | none => .error ⟨.relationship r, .ident name⟩
  | .integer n =>
    match Member.literal? (.integer n) with
    | some a => .ok (.literal a)
    | none => .error ⟨.relationship r, .integer n⟩

namespace FactBase

section

variable {α β : Type} [Member α] [Member β] [Ord α] [Std.TransOrd α] [Ord β] [Std.TransOrd β]

/-- The values of a synonym among some members. -/
def valuesOf (b : FactBase) (s : Synonym) (members : List α) : List Value :=
  (members.map Member.value).filter (b.inDomain s)

/-- The table of a relationship, given the pairs that it holds of.  A relationship
    that is never reflexive has no row when its two arguments are one synonym. -/
def relationTable (b : FactBase) (reflexive : Bool) (store : PairStore α β) :
    Argument α → Argument β → Table
  | .synonym s, .synonym t =>
    let rows := store.pairs.map fun (k, v) => (Member.value k, Member.value v)
    if s = t then
      if reflexive then
        .column s ((rows.filter fun (k, v) => k == v && b.inDomain s k).map Prod.fst)
      else
        .empty [s]
    else
      .ofRows [s, t]
        ((rows.filter fun (k, v) => b.inDomain s k && b.inDomain t v).map fun (k, v) => [k, v])
  | .synonym s, .literal v => .column s (b.valuesOf s (store.preimage v).toList)
  | .synonym s, .wildcard => .column s (b.valuesOf s store.keys)
  | .literal k, .synonym t => .column t (b.valuesOf t (store.image k).toList)
  | .wildcard, .synonym t => .column t (b.valuesOf t store.values)
  | .literal k, .literal v => .truth (store.contains k v)
  | .literal k, .wildcard => .truth (store.containsKey k)
  | .wildcard, .literal v => .truth (store.containsValue v)
  | .wildcard, .wildcard => .truth (!store.isEmpty)

/-- The table of a relationship between two arguments, which have to fit it. -/
def relate (b : FactBase) (r : Relationship) (store : PairStore α β) (lhs rhs : Ref) :
    Except ClauseFault Table := do
  let lhs ← Argument.ofRef r lhs
  let rhs ← Argument.ofRef r rhs
  .ok (b.relationTable r.mayBeReflexive store lhs rhs)

end

/-- The table of a relationship clause. -/
def suchThatTable (b : FactBase) (r : Relationship) (lhs rhs : Ref) : Except ClauseFault Table :=
  match r with
  | .follows => b.relate r b.follows.direct lhs rhs
  | .followsStar => b.relate r b.follows.star lhs rhs
  | .parent => b.relate r b.parent.direct lhs rhs
  | .parentStar => b.relate r b.parent.star lhs rhs
  | .calls => b.relate r b.calls.direct lhs rhs
  | .callsStar => b.relate r b.calls.star lhs rhs
  | .next => b.relate r b.next.direct lhs rhs
  | .nextStar => b.relate r b.next.star lhs rhs
  | .affects => b.relate r b.affects lhs rhs
  | .uses => b.relate r b.uses lhs rhs
  | .usesProc => b.relate r b.usesProc lhs rhs
  | .modifies => b.relate r b.modifies lhs rhs
  | .modifiesProc => b.relate r b.modifiesProc lhs rhs

/-! ## Patterns -/

/-- The statements that a pattern can bind, and the variables that go with them. -/
def patternCandidates (b : FactBase) (e : Entity) (expr : ExprSpec) :
    Except ClauseFault (List StatementNumber × PairStore StatementNumber String) :=
  match e, expr with
  | .assign, .wildcard => .ok (b.ofType .assign, b.targets)
  | .assign, .matching mode rpn => .ok (b.assignmentsMatching mode rpn, b.targets)
  | .whileLoop, .wildcard => .ok (b.whileControl.keys, b.whileControl)
  | .ifElse, .wildcard => .ok (b.ifControl.keys, b.ifControl)
  | .whileLoop, .matching mode rpn => .error ⟨.pattern, .spec mode rpn⟩
  | .ifElse, .matching mode rpn => .error ⟨.pattern, .spec mode rpn⟩
  | e, _ => .error ⟨.pattern, .entity e⟩

/-- The table of a pattern clause. -/
def patternTable (b : FactBase) (s : Synonym) (var : Ref) (expr : ExprSpec) :
    Except ClauseFault Table := do
  let (candidates, vars) ← b.patternCandidates s.entity expr
  match var with
  | .wildcard => .ok (.column s (candidates.map .number))
  | .ident name => .ok (.column s ((candidates.filter (vars.contains · name)).map .number))
  | .synonym v =>
    .ok (.ofRows [s, v] (candidates.flatMap fun n =>
      (vars.image n).toList.map fun name => [.number n, .name name]))
  | .integer n => .error ⟨.pattern, .variable n⟩

/-! ## Comparisons -/

/-- The values of a synonym with one of their attributes. -/
def attributed (b : FactBase) (a : AttributeRef) : List (Value × String) :=
  (b.domain a.synonym).filterMap fun v => (b.attrValue a v).map (v, ·)

/-- The values whose attribute is a given text. -/
def withAttribute (b : FactBase) (a : AttributeRef) (text : String) : List Value :=
  ((b.attributed a).filter (·.2 == text)).map Prod.fst

/-- The table of a comparison of two attributes. -/
def compareAttributes (b : FactBase) (a c : AttributeRef) : Table :=
  if a.synonym = c.synonym then
    .column a.synonym ((b.attributed a).filterMap fun (v, text) =>
      if b.attrValue c v = some text then some v else none)
  else
    .ofRows [a.synonym, c.synonym] ((b.attributed a).flatMap fun (v, text) =>
      (b.withAttribute c text).map fun w => [v, w])

/-- The table of a comparison; things of different kinds are never equal. -/
def compareTable (b : FactBase) (lhs rhs : WithRef) : Table :=
  if lhs.kind = rhs.kind then
    match lhs, rhs with
    | .attr a, .attr c => b.compareAttributes a c
    | .attr a, .ident text => .column a.synonym (b.withAttribute a text)
    | .attr a, .integer digits => .column a.synonym (b.withAttribute a digits)
    | .ident text, .attr a => .column a.synonym (b.withAttribute a text)
    | .integer digits, .attr a => .column a.synonym (b.withAttribute a digits)
    | .ident x, .ident y => .truth (x == y)
    | .integer x, .integer y => .truth (x == y)
    | .ident x, .integer y => .truth (x == y)
    | .integer x, .ident y => .truth (x == y)
  else
    .truth false

/-! ## Clauses -/

/-- The table of a condition. -/
def conditionTable (b : FactBase) : Condition → Except ClauseFault Table
  | .suchThat r lhs rhs => b.suchThatTable r lhs rhs
  | .pattern s var expr => b.patternTable s var expr
  | .compare lhs rhs => .ok (b.compareTable lhs rhs)

/-- All bindings of some synonyms from their domains. -/
def allBindings (b : FactBase) (synonyms : List Synonym) : Table :=
  .joinAll (synonyms.map b.domainTable)

/-- The table of a clause. -/
def clauseTable (b : FactBase) (c : Clause) : Except ClauseFault Table := do
  let table ← b.conditionTable c.condition
  if c.negated then
    .ok ((b.allBindings c.synonyms).subtract table)
  else
    .ok table

end FactBase

end ProgramQuery
