/-
  ProgramQuery.Facts.Basic

  The fact base: what is known about a program.

  A fact base holds the entities of a program (procedures, variables, constants
  and typed statements) and the relations between them.  It grows fact by fact;
  the derived relations are filled in by `ProgramQuery.Facts.Derived`.
-/

import ProgramQuery.Facts.PairStore
import ProgramQuery.Program.Numbering
import ProgramQuery.Program.Pattern

namespace ProgramQuery.Facts

open Std (ExtTreeMap ExtTreeSet)

/-! ## Parts -/

/-- A set of statement numbers, in ascending order. -/
abbrev NumberSet := ExtTreeSet StatementNumber

/-- Statements and their types.  A number that is registered twice has the type
    of its last registration, but stays listed under both. -/
structure StatementIndex where
  all : NumberSet := ∅
  types : ExtTreeMap StatementNumber StatementType := ∅
  byType : ExtTreeMap StatementType NumberSet := ∅

namespace StatementIndex

/-- The statements listed under a type. -/
def ofType (s : StatementIndex) (t : StatementType) : NumberSet :=
  s.byType.getD t ∅

/-- Registers a statement. -/
def add (s : StatementIndex) (n : StatementNumber) (t : StatementType) : StatementIndex where
  all := s.all.insert n
  types := s.types.insert n t
  byType := s.byType.insert t ((s.ofType t).insert n)

end StatementIndex

/-- A relation together with its transitive closure, as far as this is known. -/
structure Transitive (α : Type) [Ord α] [Std.TransOrd α] where
  direct : PairStore α α := ∅
  star : PairStore α α := ∅

namespace Transitive

variable {α : Type} [Ord α] [Std.TransOrd α]

/-- Adds a pair to the relation and to its closure. -/
def add (t : Transitive α) (a b : α) : Transitive α :=
  ⟨t.direct.add a b, t.star.add a b⟩

/-- Adds a pair to the relation only. -/
def addDirect (t : Transitive α) (a b : α) : Transitive α :=
  { t with direct := t.direct.add a b }

/-- Adds pairs to the closure only. -/
def extendStar (t : Transitive α) (pairs : List (α × α)) : Transitive α :=
  { t with star := t.star.addAll pairs }

end Transitive

/-- A way to take one name where a statement may have several.  Which one it takes is left
    open; it takes one whenever there is one. -/
structure NameChoice where
  pick : StatementNumber → NameSet → Option String
  mem_of_pick : ∀ {n names name}, pick n names = some name → name ∈ names
  isSome_pick : ∀ {n names name}, name ∈ names → (pick n names).isSome

/-- Takes the least name. -/
def NameChoice.least : NameChoice where
  pick _ names := names.min?
  mem_of_pick := ExtTreeSet.min?_mem
  isSome_pick := ExtTreeSet.isSome_min?_of_mem

end ProgramQuery.Facts

namespace ProgramQuery

open Facts

/-! ## The fact base -/

/-- What is known about a program. -/
structure FactBase where
  procedures : NameSet := ∅
  vars : NameSet := ∅
  constants : NameSet := ∅
  statements : StatementIndex := {}
  readVars : PairStore StatementNumber String := ∅
  readChoice : NameChoice := .least
  printVars : PairStore StatementNumber String := ∅
  printChoice : NameChoice := .least
  callees : PairStore StatementNumber String := ∅
  calleeChoice : NameChoice := .least
  targets : PairStore StatementNumber String := ∅
  sources : Std.ExtTreeMap StatementNumber (List String) := ∅
  ifControl : PairStore StatementNumber String := ∅
  whileControl : PairStore StatementNumber String := ∅
  follows : Transitive StatementNumber := {}
  parent : Transitive StatementNumber := {}
  calls : Transitive String := {}
  next : Transitive StatementNumber := {}
  modifies : PairStore StatementNumber String := ∅
  modifiesProc : PairStore String String := ∅
  uses : PairStore StatementNumber String := ∅
  usesProc : PairStore String String := ∅
  affects : PairStore StatementNumber StatementNumber := ∅
  finalized : Bool := false

/-- A single fact. -/
inductive Fact where
  | procedure (name : String)
  | variable (name : String)
  | constant (digits : String)
  | statement (n : StatementNumber) (type : StatementType)
  | readVar (n : StatementNumber) (var : String)
  | printVar (n : StatementNumber) (var : String)
  | callStatement (n : StatementNumber) (procedure : String)
  | assignment (n : StatementNumber) (var : String) (rpn : List String)
  | ifControl (n : StatementNumber) (var : String)
  | whileControl (n : StatementNumber) (var : String)
  | follows (before after : StatementNumber)
  | parent (container child : StatementNumber)
  | calls (caller callee : String)
  | next (before after : StatementNumber)
  | modifies (n : StatementNumber) (var : String)
  | modifiesProc (procedure var : String)
  | uses (n : StatementNumber) (var : String)
  | usesProc (procedure var : String)
  deriving DecidableEq, Repr

namespace FactBase

/-- Adds a fact.  Follows, Parent and Calls enter their closures at once; Next
    enters its closure only when derived relations are computed. -/
def add (b : FactBase) : Fact → FactBase
  | .procedure name => { b with procedures := b.procedures.insert name }
  | .variable name => { b with vars := b.vars.insert name }
  | .constant digits => { b with constants := b.constants.insert digits }
  | .statement n type => { b with statements := b.statements.add n type }
  | .readVar n var => { b with readVars := b.readVars.add n var }
  | .printVar n var => { b with printVars := b.printVars.add n var }
  | .callStatement n procedure => { b with callees := b.callees.add n procedure }
  | .assignment n var rpn =>
    { b with targets := b.targets.add n var, sources := b.sources.insert n rpn }
  | .ifControl n var => { b with ifControl := b.ifControl.add n var }
  | .whileControl n var => { b with whileControl := b.whileControl.add n var }
  | .follows before after => { b with follows := b.follows.add before after }
  | .parent container child => { b with parent := b.parent.add container child }
  | .calls caller callee => { b with calls := b.calls.add caller callee }
  | .next before after => { b with next := b.next.addDirect before after }
  | .modifies n var => { b with modifies := b.modifies.add n var }
  | .modifiesProc procedure var => { b with modifiesProc := b.modifiesProc.add procedure var }
  | .uses n var => { b with uses := b.uses.add n var }
  | .usesProc procedure var => { b with usesProc := b.usesProc.add procedure var }

/-! ## Reading -/

/-- Whether a number is a statement. -/
def isStatement (b : FactBase) (n : StatementNumber) : Bool :=
  b.statements.all.contains n

/-- The type of a statement. -/
def typeOf? (b : FactBase) (n : StatementNumber) : Option StatementType :=
  b.statements.types[n]?

/-- The statements of a type, in ascending order. -/
def ofType (b : FactBase) (t : StatementType) : List StatementNumber :=
  (b.statements.ofType t).toList

/-- The variable that a `read` statement reads; one of them, if it is known to read several. -/
def readVar? (b : FactBase) (n : StatementNumber) : Option String :=
  b.readChoice.pick n (b.readVars.image n)

/-- The variable that a `print` statement prints. -/
def printVar? (b : FactBase) (n : StatementNumber) : Option String :=
  b.printChoice.pick n (b.printVars.image n)

/-- The procedure that a `call` statement calls. -/
def callee? (b : FactBase) (n : StatementNumber) : Option String :=
  b.calleeChoice.pick n (b.callees.image n)

end FactBase

/-! ## Patterns -/

namespace FactBase

/-- Whether the right side of an assignment matches a pattern. -/
def assignmentMatches (b : FactBase) (mode : MatchMode) (pattern : List String)
    (n : StatementNumber) : Bool :=
  match b.sources[n]? with
  | none => false
  | some rpn => mode.accepts pattern rpn

/-- The assignments whose right side matches a pattern, in ascending order. -/
def assignmentsMatching (b : FactBase) (mode : MatchMode) (pattern : List String) :
    List StatementNumber :=
  (b.ofType .assign).filter (b.assignmentMatches mode pattern)

end FactBase

end ProgramQuery
