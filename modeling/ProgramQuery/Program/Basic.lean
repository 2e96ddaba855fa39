/-
  ProgramQuery.Program.Basic

  A program as an arena of statements.

  Statements are kept in one array and refer to each other by index.  A program grows
  statement by statement: `Program.pushStatement` appends one and makes it the parent of
  those that it lists, so a container is stored after everything nested in it.
  `Program.trees` unfolds lists of ids into trees.  An arena need not come from a text:
  its lists may share ids or lead out of it, and its parents may be arbitrary, so nothing
  here assumes a forest.
-/

import ProgramQuery.Program.Statement
import ProgramQuery.Program.Token

namespace ProgramQuery

/-! ## The arena -/

/-- The place of a statement in the arena. -/
abbrev StatementId := Nat

/-- A statement whose parts are given by their ids. -/
inductive StatementKind where
  | simple (action : Action)
  | whileLoop (cond : Cond) (body : List StatementId)
  | ifElse (cond : Cond) (thenBranch elseBranch : List StatementId)
  deriving DecidableEq, Repr

namespace StatementKind

/-- The lists of ids directly inside a statement. -/
def blocks : StatementKind → List (List StatementId)
  | .simple _ => []
  | .whileLoop _ body => [body]
  | .ifElse _ thenBranch elseBranch => [thenBranch, elseBranch]

/-- The ids directly inside a statement. -/
def children (kind : StatementKind) : List StatementId :=
  kind.blocks.flatten

end StatementKind

/-- A statement of the arena. -/
structure Statement where
  kind : StatementKind
  parent : Option StatementId
  pos : Position
  deriving DecidableEq, Repr

/-- A procedure whose body is given by ids. -/
structure Procedure where
  name : String
  pos : Position
  body : List StatementId
  deriving DecidableEq, Repr

/-- A program: its procedures in the order of their declaration, and the
    statements that they share. -/
structure Program where
  procedures : List Procedure := []
  statements : Array Statement := #[]
  deriving Repr

namespace Program

/-- The statement with a given id. -/
def statement? (p : Program) (id : StatementId) : Option Statement :=
  p.statements[id]?

/-! ## Growth -/

/-- Makes a statement the parent of another one, if that one is in the arena. -/
def link (parent : StatementId) (statements : Array Statement) (child : StatementId) :
    Array Statement :=
  statements.modify child fun s => { s with parent := some parent }

/-- Appends a statement and makes it the parent of those that it lists. -/
def pushStatement (p : Program) (kind : StatementKind) (pos : Position) : StatementId × Program :=
  let id := p.statements.size
  let linked := kind.children.foldl (link id) p.statements
  (id, { p with statements := linked.push ⟨kind, none, pos⟩ })

/-- Appends a procedure. -/
def pushProcedure (p : Program) (q : Procedure) : Program :=
  { p with procedures := p.procedures ++ [q] }

/-! ## Trees -/

end Program

/-- The tree of a statement, given those of the ids directly inside it. -/
def StatementKind.tree? (inner : StatementId → Option (Stmt StatementId)) (id : StatementId) :
    StatementKind → Option (Stmt StatementId)
  | .simple action => some (.simple id action)
  | .whileLoop cond body => do
    let body ← body.mapM inner
    some (.whileLoop id cond body)
  | .ifElse cond thenBranch elseBranch => do
    let thenBranch ← thenBranch.mapM inner
    let elseBranch ← elseBranch.mapM inner
    some (.ifElse id cond thenBranch elseBranch)

namespace Program

/-- The tree of the statement with a given id, if it has at most `depth` levels and all its
    ids are in the arena. -/
def tree? (p : Program) : Nat → StatementId → Option (Stmt StatementId)
  | 0, _ => none
  | depth + 1, id => do
    let s ← p.statement? id
    s.kind.tree? (p.tree? depth) id

/-- The trees of a list of ids.  There are none if the way down leads out of the arena or does
    not end; otherwise it never meets an id twice, so the number of statements bounds its depth. -/
def trees (p : Program) (ids : List StatementId) : Option (List (Stmt StatementId)) :=
  ids.mapM (p.tree? p.statements.size)

end Program

end ProgramQuery
