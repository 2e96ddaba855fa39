/-
  ProgramQuery.Program.Numbering

  Statement numbers.

  The statements of a program are numbered from one, in reading order through
  all procedures.  Every visit of a statement takes a number; a statement that
  is listed twice is known by the last of its numbers.
-/

import ProgramQuery.Program.Basic

namespace ProgramQuery

/-- Numbers of statements, counted from one. -/
abbrev StatementNumber := Nat

/-- Which statement has which number.  `byNumber` lists the ids by number, the
    first being number one; `byId` gives the number of each id, zero for an id
    that occurs nowhere. -/
structure Numbering where
  byNumber : Array StatementId
  byId : Array StatementNumber
  deriving Repr

namespace Numbering

/-- The numbering that visits `ids` in this order, in an arena of `size` statements. -/
def ofVisits (size : Nat) (ids : List StatementId) : Numbering where
  byNumber := ids.toArray
  byId := (ids.zipIdx 1).foldl (fun numbers (id, n) => numbers.setIfInBounds id n)
    (Array.replicate size 0)

/-- The number of a statement. -/
def number (n : Numbering) (id : StatementId) : StatementNumber :=
  n.byId[id]?.getD 0

/-- The statement with a given number. -/
def id? (n : Numbering) (num : StatementNumber) : Option StatementId :=
  if num = 0 then none else n.byNumber[num - 1]?

/-- How many numbers there are. -/
def size (n : Numbering) : Nat :=
  n.byNumber.size

end Numbering

/-- A procedure with the trees of its body. -/
structure ProcedureTree where
  name : String
  body : List (Stmt StatementId)
  deriving Repr

namespace ProcedureTree

/-- All statements of a procedure, in reading order. -/
def statements (p : ProcedureTree) : List (Stmt StatementId) :=
  Stmt.preorderList p.body

/-- The procedures that a procedure calls, call by call in reading order. -/
def callees (p : ProcedureTree) : List String :=
  p.statements.filterMap Stmt.callee?

end ProcedureTree

/-- A program with its trees and its statement numbers. -/
structure NumberedProgram where
  program : Program
  procedures : List ProcedureTree
  numbering : Numbering
  deriving Repr

/-- A program with its trees, its statements numbered. -/
def NumberedProgram.ofTrees (p : Program) (procedures : List ProcedureTree) : NumberedProgram :=
  let visits := procedures.flatMap fun q => q.statements.map Stmt.tag
  ⟨p, procedures, .ofVisits p.statements.size visits⟩

namespace Program

/-- The trees of a procedure. -/
def procedureTree? (p : Program) (q : Procedure) : Option ProcedureTree := do
  let body ← p.trees q.body
  some ⟨q.name, body⟩

/-- The trees of all procedures. -/
def procedureTrees? (p : Program) : Option (List ProcedureTree) :=
  p.procedures.mapM p.procedureTree?

/-- A program with its statements numbered, if all its procedures have their trees. -/
def numbered? (p : Program) : Option NumberedProgram :=
  p.procedureTrees?.map (.ofTrees p)

/-- The trees of a program that has them, as every program of a text does. -/
def procedureTrees (p : Program) : List ProcedureTree :=
  p.procedureTrees?.getD []

/-- A program that has its trees, with its statements numbered. -/
def numbered (p : Program) : NumberedProgram :=
  .ofTrees p p.procedureTrees

end Program

namespace NumberedProgram

/-- The number of a statement. -/
def number (p : NumberedProgram) (id : StatementId) : StatementNumber :=
  p.numbering.number id

/-- All statements with the numbers of their visits, in reading order. -/
def visits (p : NumberedProgram) : List (StatementNumber × Stmt StatementId) :=
  ((p.procedures.flatMap ProcedureTree.statements).zipIdx 1).map fun (s, n) => (n, s)

end NumberedProgram

end ProgramQuery
