/-
  ProgramQuery.Facts.OfProgram

  The facts of a program.

  Each family of facts is a list read off the statement trees; the fact base of a
  program is their sum, finalized.  Modifies and Uses go through calls, so the
  procedures are taken callees first and each call inherits what is known of
  its callee by then.
-/

import ProgramQuery.Facts.Derived
import ProgramQuery.Flow.Graph
import ProgramQuery.Program.CallGraph

namespace ProgramQuery

open Facts

namespace NumberedProgram

/-! ## Entities -/

/-- The facts about the entities in a single statement, apart from those nested in it. -/
def statementFacts (n : StatementNumber) (s : Stmt StatementId) : List Fact :=
  .statement n s.type ::
    match s with
    | .simple _ (.read var) => [.variable var, .readVar n var]
    | .simple _ (.print var) => [.variable var, .printVar n var]
    | .simple _ (.call procedure) => [.callStatement n procedure]
    | .simple _ (.assign var e) =>
      .variable var :: (e.vars.toList.map .variable ++ e.constants.toList.map .constant ++
        [.assignment n var e.rpn])
    | .whileLoop _ cond _ =>
      cond.vars.toList.flatMap (fun v => [.variable v, .whileControl n v]) ++
        cond.constants.toList.map .constant
    | .ifElse _ cond _ _ =>
      cond.vars.toList.flatMap (fun v => [.variable v, .ifControl n v]) ++
        cond.constants.toList.map .constant

/-- The facts about entities. -/
def entityFacts (p : NumberedProgram) : List Fact :=
  p.procedures.map (fun q => .procedure q.name) ++
    p.visits.flatMap fun (n, s) => statementFacts n s

/-! ## Structure -/

/-- The facts about neighbours in a list. -/
def followsIn (p : NumberedProgram) (list : List (Stmt StatementId)) : List Fact :=
  (list.zip list.tail).map fun (a, b) => .follows (p.number a.tag) (p.number b.tag)

/-- Takes statement lists off a stack, the first one on top, one in each round; the lists inside
    the statements of a list go onto the stack when it is taken. -/
def takeLists : Nat → List (List (Stmt StatementId)) → List (List (Stmt StatementId))
  | 0, _ => []
  | _ + 1, [] => []
  | rounds + 1, list :: stack =>
    list :: takeLists rounds ((list.flatMap Stmt.blocks).reverse ++ stack)

/-- All statement lists of a program, as they are taken.  No statement has more than two lists
    inside, so the rounds are enough. -/
def lists (p : NumberedProgram) : List (List (Stmt StatementId)) :=
  takeLists (p.procedures.length + 2 * p.visits.length)
    (p.procedures.map ProcedureTree.body).reverse

/-- The facts about statements that stand directly after each other. -/
def followsFacts (p : NumberedProgram) : List Fact :=
  p.lists.flatMap p.followsIn

/-- The facts about statements directly inside others. -/
def parentFacts (p : NumberedProgram) : List Fact :=
  p.visits.flatMap fun (n, s) => s.children.map fun c => .parent n (p.number c.tag)

/-- The facts about calls. -/
def callFacts (p : NumberedProgram) : List Fact :=
  p.procedures.flatMap fun q => q.callees.map (.calls q.name)

/-- The facts about the flow of control. -/
def nextFacts (p : NumberedProgram) : List Fact :=
  (Flow.graphs p).flatMap fun g => g.edges.map fun (a, b) => .next a b

/-! ## Effects -/

/-- What a statement can do to a variable. -/
inductive Effect where
  | modifies
  | uses
  deriving DecidableEq, Repr

/-- The fact that a statement has an effect on a variable. -/
def Effect.statementFact : Effect → StatementNumber → String → Fact
  | .modifies, n, var => .modifies n var
  | .uses, n, var => .uses n var

/-- The fact that a procedure has an effect on a variable. -/
def Effect.procedureFact : Effect → String → String → Fact
  | .modifies, procedure, var => .modifiesProc procedure var
  | .uses, procedure, var => .usesProc procedure var

/-- The variables affected by procedures, as far as they are known. -/
abbrev ProcedureEffects := Std.ExtTreeMap String NameSet

/-- The variables that a single statement affects, apart from those nested in it. -/
def ownEffect (effect : Effect) (known : ProcedureEffects) : Stmt StatementId → NameSet
  | .simple _ (.call procedure) => known.getD procedure ∅
  | .simple _ (.read var) =>
    match effect with
    | .modifies => (∅ : NameSet).insert var
    | .uses => ∅
  | .simple _ (.print var) =>
    match effect with
    | .modifies => ∅
    | .uses => (∅ : NameSet).insert var
  | .simple _ (.assign var e) =>
    match effect with
    | .modifies => (∅ : NameSet).insert var
    | .uses => e.vars
  | .whileLoop _ cond _ =>
    match effect with
    | .modifies => ∅
    | .uses => cond.vars
  | .ifElse _ cond _ _ =>
    match effect with
    | .modifies => ∅
    | .uses => cond.vars

/-- The variables that some statements affect. -/
def effectOf (effect : Effect) (known : ProcedureEffects) (ss : List (Stmt StatementId)) :
    NameSet :=
  ss.foldl (fun vars s => vars ∪ ownEffect effect known s) ∅

/-- The effects of the procedures so far, and the facts about them. -/
structure EffectFacts where
  known : ProcedureEffects := ∅
  facts : List Fact := []

/-- Adds the effects of one procedure. -/
def EffectFacts.addProcedure (p : NumberedProgram) (effect : Effect) (found : EffectFacts)
    (q : ProcedureTree) : EffectFacts :=
  let whole := effectOf effect found.known q.statements
  let statements := q.statements.flatMap fun s =>
    (effectOf effect found.known s.preorder).toList.map (effect.statementFact (p.number s.tag))
  { known := found.known.insert q.name whole
    facts := found.facts ++ statements ++ whole.toList.map (effect.procedureFact q.name) }

/-- The facts about one effect, through calls. -/
def effectFacts (p : NumberedProgram) (effect : Effect) : List Fact :=
  ((p.calleeFirst.filterMap (p.procedures[·]?)).foldl
    (EffectFacts.addProcedure p effect) {}).facts

/-! ## All facts -/

/-- All facts that are read off a program. -/
def facts (p : NumberedProgram) : List Fact :=
  p.entityFacts ++ p.followsFacts ++ p.parentFacts ++ p.callFacts ++
    p.effectFacts .modifies ++ p.effectFacts .uses ++ p.nextFacts

end NumberedProgram

/-- The fact base of a program, with its derived relations. -/
def FactBase.ofProgram (p : NumberedProgram) : FactBase :=
  (({} : FactBase).addAll p.facts).finalize

end ProgramQuery
