/-
  ProgramQuery.Program.CallGraph

  Who calls whom, and which programs are well formed.

  A program is accepted when its procedures have distinct names, every callee
  is declared and no procedure calls itself through others.  The faults are
  looked for in this order.  Accepted procedures can be ordered so that every
  callee comes before its callers.
-/

import ProgramQuery.Graph.Order
import ProgramQuery.Program.Numbering
import ProgramQuery.Program.Parser

namespace ProgramQuery

namespace Program

/-! ## Well-formed programs -/

/-- The first name that has occurred before it in the list. -/
def firstRepeated? (seen : List String) : List String → Option String
  | [] => none
  | name :: rest => if name ∈ seen then some name else firstRepeated? (name :: seen) rest

/-- The first call of a procedure that is not declared: the caller and the callee. -/
def firstUndefined? (declared : List String) (ps : List ProcedureTree) : Option (String × String) :=
  ps.findSome? fun p => (p.callees.find? (· ∉ declared)).map fun callee => (p.name, callee)

/-- The call graph on the names of procedures. -/
def callGraph (ps : List ProcedureTree) : Graph.OrderedGraph String :=
  .ofAdjacency (ps.map fun p => (p.name, p.callees))

/-- The fault of a program, if it has one. -/
def fault? (p : Program) : Option ProgramFault :=
  let ps := p.procedureTrees
  let names := ps.map ProcedureTree.name
  match firstRepeated? [] names with
  | some name => some (.duplicateProcedure name)
  | none =>
    match firstUndefined? names ps with
    | some (caller, callee) => some (.undefinedProcedure caller callee)
    | none =>
      match (callGraph ps).topologicalOrder with
      | .error name => some (.recursiveCall name)
      | .ok _ => none

/-- The program of a text. -/
def read (text : String) : Except ProgramFault Program :=
  match parse text with
  | .error fault => .error fault
  | .ok p =>
    match p.fault? with
    | some fault => .error fault
    | none => .ok p

end Program

/-! ## Callees first -/

namespace NumberedProgram

/-- The index of the last procedure with a given name. -/
def lastIndexOf? (ps : List ProcedureTree) (name : String) : Option Nat :=
  (ps.zipIdx.filterMap fun (p, i) => if p.name = name then some i else none).getLast?

/-- The call graph on the indices of procedures; calls of unknown procedures are left out. -/
def callIndices (ps : List ProcedureTree) : Graph.OrderedGraph Nat :=
  .ofAdjacency (ps.zipIdx.map fun (p, i) => (i, p.callees.filterMap (lastIndexOf? ps)))

/-- The indices of the procedures, callees before their callers; in the order
    of declaration if calls are recursive. -/
def calleeFirst (p : NumberedProgram) : List Nat :=
  match (callIndices p.procedures).topologicalOrder with
  | .ok order => order.reverse
  | .error _ => List.range p.procedures.length

end NumberedProgram

/-- The indices of the procedures of an arena, callees before their callers, if all of them
    have their trees. -/
def Program.calleeFirst? (p : Program) : Option (List Nat) :=
  p.numbered?.map NumberedProgram.calleeFirst

end ProgramQuery
