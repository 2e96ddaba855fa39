/-
  ProgramQuery.Query.Basic

  Queries whose synonyms are resolved.

  A query selects a truth value or tuples, under the condition that all its
  clauses hold.  Every synonym carries the kind of entity that it stands for, so a
  query makes sense without its declarations.
-/

import ProgramQuery.Program.Numbering
import ProgramQuery.Program.Pattern
import ProgramQuery.Query.Entity

namespace ProgramQuery

/-! ## Clauses -/

/-- An argument of a relationship, or the variable of a pattern. -/
inductive Ref where
  | synonym (s : Synonym)
  | ident (name : String)
  | integer (n : StatementNumber)
  | wildcard
  deriving DecidableEq, Repr

/-- The synonym of an argument. -/
def Ref.synonym? : Ref → Option Synonym
  | .synonym s => some s
  | _ => none

/-- What a pattern asks of the right side of an assignment: nothing, or to match
    an expression, which is given in reverse Polish form. -/
inductive ExprSpec where
  | wildcard
  | matching (mode : MatchMode) (rpn : List String)
  deriving DecidableEq, Repr

/-- A side of a comparison. -/
inductive WithRef where
  | attr (a : AttributeRef)
  | ident (name : String)
  | integer (digits : String)
  deriving DecidableEq, Repr

namespace WithRef

/-- The kind of values of a side. -/
def kind : WithRef → AttributeKind
  | .attr a => a.attr.kind
  | .ident _ => .name
  | .integer _ => .integer

/-- The synonym of a side. -/
def synonym? : WithRef → Option Synonym
  | .attr a => some a.synonym
  | _ => none

end WithRef

/-- What a clause says. -/
inductive Condition where
  | suchThat (relationship : Relationship) (lhs rhs : Ref)
  | pattern (synonym : Synonym) (var : Ref) (expr : ExprSpec)
  | compare (lhs rhs : WithRef)
  deriving DecidableEq, Repr

namespace Condition

/-- The synonyms in a condition, in the order of its arguments. -/
def mentions : Condition → List Synonym
  | .suchThat _ lhs rhs => lhs.synonym?.toList ++ rhs.synonym?.toList
  | .pattern synonym var _ => synonym :: var.synonym?.toList
  | .compare lhs rhs => lhs.synonym?.toList ++ rhs.synonym?.toList

end Condition

/-- A clause: a condition, or its negation. -/
structure Clause where
  condition : Condition
  negated : Bool
  deriving DecidableEq, Repr

/-- The distinct synonyms in a clause, in the order of its arguments. -/
def Clause.synonyms (c : Clause) : List Synonym :=
  c.condition.mentions.eraseDups

/-! ## Queries -/

/-- An element of a selected tuple. -/
inductive Element where
  | synonym (s : Synonym)
  | attr (a : AttributeRef)
  deriving DecidableEq, Repr

/-- The synonym of an element. -/
def Element.base : Element → Synonym
  | .synonym s => s
  | .attr a => a.synonym

/-- What a query selects. -/
inductive Selection where
  | boolean
  | tuple (elements : List Element)
  deriving DecidableEq, Repr

namespace Selection

/-- The elements of the selected tuples. -/
def elements : Selection → List Element
  | .boolean => []
  | .tuple elements => elements

/-- The distinct synonyms in a selection. -/
def synonyms (s : Selection) : List Synonym :=
  (s.elements.map Element.base).eraseDups

end Selection

/-- A query. -/
structure Query where
  declarations : List Synonym
  selection : Selection
  clauses : List Clause
  deriving DecidableEq, Repr

namespace Query

/-- Whether a query asks for a truth value. -/
def isBoolean (q : Query) : Bool :=
  q.selection == .boolean

/-- The distinct synonyms that a query selects. -/
def selected (q : Query) : List Synonym :=
  q.selection.synonyms

end Query

end ProgramQuery
