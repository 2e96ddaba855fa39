/-
  ProgramQuery.Facts.Derived

  The derived relations of a fact base.

  `FactBase.finalize` computes the closures and Affects from the relations as
  they stand, and adds what it finds; facts may be added later and the base
  finalized again.  A `Write` is one such step, and a base is the result of a
  list of writes.
-/

import ProgramQuery.Facts.Basic
import ProgramQuery.Facts.Closure

namespace ProgramQuery

open Facts

namespace FactBase

/-! ## Affects -/

/-- Whether a statement ends the life of a value of `var`: an assignment, a
    `read` or a `call` that modifies it.  Containers never do by themselves. -/
def kills (b : FactBase) (var : String) (n : StatementNumber) : Bool :=
  (match b.typeOf? n with
    | some .assign | some .read | some .call => true
    | _ => false) && b.modifies.contains n var

/-- The statements that a value of `var` moves on to from a statement. -/
def survivors (b : FactBase) (var : String) (n : StatementNumber) : List StatementNumber :=
  if b.kills var n then [] else b.next.direct.successors n

/-- The statements that the value which an assignment gives to `var` can reach. -/
def reachedBy (b : FactBase) (var : String) (origin : StatementNumber) : List StatementNumber :=
  let starts := b.next.direct.successors origin
  Graph.explore (b.survivors var) (starts.length + b.next.direct.size) [] starts.reverse

/-- Whether a statement is an assignment that uses `var`. -/
def readsInAssignment (b : FactBase) (var : String) (n : StatementNumber) : Bool :=
  b.typeOf? n == some .assign && b.uses.contains n var

/-- The pairs of assignments such that the second uses the value of the first. -/
def affectsPairs (b : FactBase) : List (StatementNumber × StatementNumber) :=
  b.targets.pairs.flatMap fun (origin, var) =>
    ((b.reachedBy var origin).filter (b.readsInAssignment var)).map (origin, ·)

/-! ## Finalizing -/

/-- Adds the closures and Affects. -/
def finalize (b : FactBase) : FactBase :=
  { b with
    follows := b.follows.extendStar b.follows.direct.ascendingPairs
    parent := b.parent.extendStar b.parent.direct.ascendingPairs
    calls := b.calls.extendStar b.calls.direct.acyclicPairs
    next := b.next.extendStar b.next.direct.reachablePairs
    affects := b.affects.addAll b.affectsPairs
    finalized := true }

end FactBase

/-- A step in the life of a fact base. -/
inductive Write where
  | add (fact : Fact)
  | finalize
  deriving DecidableEq, Repr

namespace FactBase

/-- A fact base after one write. -/
def write (b : FactBase) : Write → FactBase
  | .add fact => b.add fact
  | .finalize => b.finalize

/-- A fact base after some writes. -/
def writeAll (b : FactBase) (writes : List Write) : FactBase :=
  writes.foldl write b

/-- A fact base after some more facts. -/
def addAll (b : FactBase) (facts : List Fact) : FactBase :=
  facts.foldl add b

end FactBase

/-! ## Counts -/

/-- How much is known, kind by kind. -/
structure FactCounts where
  procedures : Nat
  vars : Nat
  constants : Nat
  statements : Nat
  follows : Nat
  followsStar : Nat
  parent : Nat
  parentStar : Nat
  calls : Nat
  callsStar : Nat
  next : Nat
  nextStar : Nat
  affects : Nat
  modifies : Nat
  modifiesProc : Nat
  uses : Nat
  usesProc : Nat
  deriving DecidableEq, Repr

/-- The counts of a fact base. -/
def FactBase.counts (b : FactBase) : FactCounts where
  procedures := b.procedures.size
  vars := b.vars.size
  constants := b.constants.size
  statements := b.statements.all.size
  follows := b.follows.direct.size
  followsStar := b.follows.star.size
  parent := b.parent.direct.size
  parentStar := b.parent.star.size
  calls := b.calls.direct.size
  callsStar := b.calls.star.size
  next := b.next.direct.size
  nextStar := b.next.star.size
  affects := b.affects.size
  modifies := b.modifies.size
  modifiesProc := b.modifiesProc.size
  uses := b.uses.size
  usesProc := b.usesProc.size

namespace FactCounts

/-- One count with its two names, for documents and for readers. -/
structure Entry where
  key : String
  label : String
  count : Nat
  deriving DecidableEq, Repr

/-- All counts, in the order in which they are reported. -/
def entries (c : FactCounts) : List Entry :=
  [⟨"procedures", "procedures", c.procedures⟩,
    ⟨"variables", "variables", c.vars⟩,
    ⟨"constants", "constants", c.constants⟩,
    ⟨"statements", "statements", c.statements⟩,
    ⟨"follows", "Follows", c.follows⟩,
    ⟨"follows_star", "Follows*", c.followsStar⟩,
    ⟨"parent", "Parent", c.parent⟩,
    ⟨"parent_star", "Parent*", c.parentStar⟩,
    ⟨"calls", "Calls", c.calls⟩,
    ⟨"calls_star", "Calls*", c.callsStar⟩,
    ⟨"next", "Next", c.next⟩,
    ⟨"next_star", "Next*", c.nextStar⟩,
    ⟨"affects", "Affects", c.affects⟩,
    ⟨"modifies_stmt", "Modifies (stmt)", c.modifies⟩,
    ⟨"modifies_proc", "Modifies (proc)", c.modifiesProc⟩,
    ⟨"uses_stmt", "Uses (stmt)", c.uses⟩,
    ⟨"uses_proc", "Uses (proc)", c.usesProc⟩]

end FactCounts

end ProgramQuery
