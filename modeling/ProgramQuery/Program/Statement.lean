/-
  ProgramQuery.Program.Statement

  Statements as trees.

  `Stmt α` is a statement with everything nested in it, each statement carrying
  a tag: the reader tags statements with their positions, and the arena of a
  program gives them back tagged with their ids.  All later analyses are
  recursions over these trees.
-/

import ProgramQuery.Program.Expr

namespace ProgramQuery

/-! ## Kinds -/

/-- The types of statements. -/
inductive StatementType where
  | read
  | print
  | call
  | whileLoop
  | ifElse
  | assign
  deriving DecidableEq, Repr

namespace StatementType

/-- The keyword that names the type. -/
def text : StatementType → String
  | .read => "read"
  | .print => "print"
  | .call => "call"
  | .whileLoop => "while"
  | .ifElse => "if"
  | .assign => "assign"

/-- All types, in the order in which they are listed. -/
def all : List StatementType :=
  [.read, .print, .call, .whileLoop, .ifElse, .assign]

/-- The type that a keyword names. -/
def ofText? (s : String) : Option StatementType :=
  all.find? (·.text == s)

/-- The place of a type in that order. -/
def rank : StatementType → Nat
  | .read => 0
  | .print => 1
  | .call => 2
  | .whileLoop => 3
  | .ifElse => 4
  | .assign => 5

instance : Ord StatementType := ⟨fun a b => compare a.rank b.rank⟩

theorem compare_eq (a b : StatementType) : compare a b = compare a.rank b.rank := rfl

theorem rank_injective {a b : StatementType} (h : a.rank = b.rank) : a = b := by
  cases a <;> cases b <;> first | rfl | exact absurd h (by decide)

instance : Std.TransOrd StatementType where
  eq_swap {a b} := by
    rw [compare_eq, compare_eq]
    exact Std.OrientedOrd.eq_swap
  isLE_trans {a b c} h_ab h_bc := by
    rw [compare_eq] at *
    exact Std.TransOrd.isLE_trans h_ab h_bc

instance : Std.LawfulEqOrd StatementType where
  compare_self {a} := by
    rw [compare_eq]
    exact Std.ReflOrd.compare_self
  eq_of_compare {a b} h := by
    rw [compare_eq] at h
    exact rank_injective (Std.LawfulEqOrd.eq_of_compare h)

end StatementType

/-- A statement with no statement inside. -/
inductive Action where
  | read (var : String)
  | print (var : String)
  | call (procedure : String)
  | assign (var : String) (expr : Expr)
  deriving DecidableEq, Repr

namespace Action

/-- The type of an action. -/
def type : Action → StatementType
  | .read _ => .read
  | .print _ => .print
  | .call _ => .call
  | .assign _ _ => .assign

/-- An action as one line of text. -/
def label : Action → String
  | .read var => "read " ++ var
  | .print var => "print " ++ var
  | .call procedure => "call " ++ procedure
  | .assign var expr => var ++ " = " ++ expr.text

end Action

/-! ## Trees -/

/-- A statement with all that is nested in it. -/
inductive Stmt (α : Type) where
  | simple (tag : α) (action : Action)
  | whileLoop (tag : α) (cond : Cond) (body : List (Stmt α))
  | ifElse (tag : α) (cond : Cond) (thenBranch elseBranch : List (Stmt α))
  deriving Repr

namespace Stmt

variable {α : Type}

/-- The tag of the statement itself. -/
def tag : Stmt α → α
  | .simple tag _ => tag
  | .whileLoop tag _ _ => tag
  | .ifElse tag _ _ _ => tag

/-- The type of the statement itself. -/
def type : Stmt α → StatementType
  | .simple _ action => action.type
  | .whileLoop .. => .whileLoop
  | .ifElse .. => .ifElse

/-- The statement as one line of text, without what is nested in it. -/
def label : Stmt α → String
  | .simple _ action => action.label
  | .whileLoop _ cond _ => "while (" ++ cond.text ++ ")"
  | .ifElse _ cond _ _ => "if (" ++ cond.text ++ ")"

/-- The procedure that the statement itself calls. -/
def callee? : Stmt α → Option String
  | .simple _ (.call procedure) => some procedure
  | _ => none

/-- The statement lists directly inside a statement. -/
def blocks : Stmt α → List (List (Stmt α))
  | .simple _ _ => []
  | .whileLoop _ _ body => [body]
  | .ifElse _ _ thenBranch elseBranch => [thenBranch, elseBranch]

/-- The statements directly inside a statement. -/
def children (s : Stmt α) : List (Stmt α) :=
  s.blocks.flatten

mutual

/-- A statement followed by all that is nested in it, in reading order. -/
def preorder : Stmt α → List (Stmt α)
  | .simple tag action => [.simple tag action]
  | .whileLoop tag cond body => .whileLoop tag cond body :: preorderList body
  | .ifElse tag cond thenBranch elseBranch =>
    .ifElse tag cond thenBranch elseBranch ::
      (preorderList thenBranch ++ preorderList elseBranch)

/-- The statements of a list and all that is nested in them, in reading order. -/
def preorderList : List (Stmt α) → List (Stmt α)
  | [] => []
  | s :: rest => preorder s ++ preorderList rest

end

end Stmt

end ProgramQuery
