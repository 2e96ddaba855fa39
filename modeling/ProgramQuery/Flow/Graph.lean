/-
  ProgramQuery.Flow.Graph

  Control flow graphs.

  The graph of a procedure has its statements as nodes and an edge wherever
  control may pass from one to the next: the end of a loop body leads back to
  the loop, and both branches of an `if` lead to what follows it.
-/

import ProgramQuery.Program.Numbering

namespace ProgramQuery.Flow

/-- A node: a statement of the procedure. -/
structure Node where
  id : StatementNumber
  line : Nat
  code : String
  deriving DecidableEq, Repr

/-- An edge between two statements. -/
abbrev Edge := StatementNumber × StatementNumber

/-- A control flow graph. -/
structure FlowGraph where
  procedure : String
  nodes : List Node := []
  edges : List Edge := []
  deriving DecidableEq, Repr

namespace FlowGraph

/-- Adds an edge, unless it is there. -/
def addEdge (g : FlowGraph) (e : Edge) : FlowGraph :=
  if e ∈ g.edges then g else { g with edges := g.edges ++ [e] }

/-- The statements that may follow a statement, in the order of the edges. -/
def successors (g : FlowGraph) (id : StatementNumber) : List StatementNumber :=
  g.edges.filterMap fun (a, b) => if a = id then some b else none

end FlowGraph

/-! ## Edges of statement lists -/

/-- Edges, and the statements from which control leaves. -/
structure Passage where
  edges : List Edge
  exits : List StatementNumber
  deriving DecidableEq, Repr

mutual

/-- The flow through a statement that control enters from `preds`. -/
def link (number : StatementId → StatementNumber) (preds : List StatementNumber) :
    Stmt StatementId → Passage
  | .simple id _ =>
    let n := number id
    ⟨preds.map (·, n), [n]⟩
  | .whileLoop id _ body =>
    let n := number id
    let inner := linkList number [n] body
    ⟨preds.map (·, n) ++ inner.edges ++ inner.exits.map (·, n), [n]⟩
  | .ifElse id _ thenBranch elseBranch =>
    let n := number id
    let yes := linkList number [n] thenBranch
    let no := linkList number [n] elseBranch
    ⟨preds.map (·, n) ++ yes.edges ++ no.edges, yes.exits ++ no.exits⟩

/-- The flow through a list of statements that control enters from `preds`. -/
def linkList (number : StatementId → StatementNumber) (preds : List StatementNumber) :
    List (Stmt StatementId) → Passage
  | [] => ⟨[], preds⟩
  | s :: rest =>
    let first := link number preds s
    let last := linkList number first.exits rest
    ⟨first.edges ++ last.edges, last.exits⟩

end

/-! ## Graphs of procedures -/

/-- Edges in ascending order. -/
def edgeLe (a b : Edge) : Bool :=
  a.1 < b.1 || (a.1 == b.1 && a.2 ≤ b.2)

/-- The nodes of some statements, in ascending order. -/
def nodesOf (p : NumberedProgram) (statements : List (Stmt StatementId)) : List Node :=
  (statements.map fun s =>
    let line := match p.program.statement? s.tag with
      | some t => t.pos.line
      | none => 0
    ⟨p.number s.tag, line, s.label⟩).mergeSort fun a b => a.id ≤ b.id

/-- The control flow graph of a procedure; its edges are in ascending order. -/
def FlowGraph.ofProcedure (p : NumberedProgram) (q : ProcedureTree) : FlowGraph where
  procedure := q.name
  nodes := nodesOf p q.statements
  edges := (linkList p.number [] q.body).edges.eraseDups.mergeSort edgeLe

/-- The control flow graphs of all procedures. -/
def graphs (p : NumberedProgram) : List FlowGraph :=
  p.procedures.map (FlowGraph.ofProcedure p)

end ProgramQuery.Flow
