/-
  ProgramQuery.Answer.Domain

  The values that a synonym can have, and their attributes.
-/

import ProgramQuery.Answer.Table
import ProgramQuery.Facts.Derived
import ProgramQuery.Query.Basic

namespace ProgramQuery

namespace FactBase

/-- All values of a synonym, in ascending order. -/
def domain (b : FactBase) (s : Synonym) : List Value :=
  match s.entity with
  | .stmt => b.statements.all.toList.map .number
  | .variable => b.vars.toList.map .name
  | .constant => b.constants.toList.map .name
  | .procedure => b.procedures.toList.map .name
  | .read => (b.ofType .read).map .number
  | .print => (b.ofType .print).map .number
  | .call => (b.ofType .call).map .number
  | .whileLoop => (b.ofType .whileLoop).map .number
  | .ifElse => (b.ofType .ifElse).map .number
  | .assign => (b.ofType .assign).map .number

/-- The values of a synonym as a table. -/
def domainTable (b : FactBase) (s : Synonym) : Table :=
  .column s (b.domain s)

/-- Whether a synonym can have a value. -/
def inDomain (b : FactBase) (s : Synonym) : Value → Bool
  | .number n =>
    match s.entity with
    | .stmt => b.isStatement n
    | e => e.statementType?.isSome && b.typeOf? n == e.statementType?
  | .name text =>
    match s.entity with
    | .variable => b.vars.contains text
    | .constant => b.constants.contains text
    | .procedure => b.procedures.contains text
    | _ => false

/-- The attribute of a value.  The procedure of a call and the variable of a `read`
    or `print` are looked up; any other attribute is the value itself. -/
def attrValue (b : FactBase) (a : AttributeRef) (v : Value) : Option String :=
  match a.synonym.entity, a.attr, v with
  | .call, .procName, .number n => b.callee? n
  | .read, .varName, .number n => b.readVar? n
  | .print, .varName, .number n => b.printVar? n
  | _, _, v => some v.text

end FactBase

end ProgramQuery
