/-
  ProgramQuery.Program.Expr

  Arithmetic expressions and the conditions built from them.

  Constants are texts of digits in canonical form, since they have no bound.
  An expression has three readings here: its text, with just the parentheses
  that its shape needs; its reverse Polish form, on which patterns are matched;
  and the names and constants that it mentions.
-/

import ProgramQuery.Text.Name

namespace ProgramQuery

/-! ## Expressions -/

/-- The arithmetic operators. -/
inductive BinOp where
  | add
  | sub
  | mul
  | div
  | mod
  deriving DecidableEq, Repr

namespace BinOp

/-- The operator as it is written. -/
def text : BinOp → String
  | .add => "+"
  | .sub => "-"
  | .mul => "*"
  | .div => "/"
  | .mod => "%"

/-- How tightly the operator binds. -/
def precedence : BinOp → Nat
  | .add | .sub => 1
  | .mul | .div | .mod => 2

end BinOp

/-- An arithmetic expression. -/
inductive Expr where
  | var (name : String)
  | const (digits : String)
  | binary (op : BinOp) (lhs rhs : Expr)
  deriving DecidableEq, Repr

namespace Expr

/-- The text of an expression as an operand: `outer` is how tightly the operator
    around it binds, and `right` says whether it stands to the right of that
    operator.  Operators of one precedence group to the left, so an operand on
    the right needs parentheses already at equal precedence. -/
def operandText (outer : Nat) (right : Bool) : Expr → String
  | .var name => name
  | .const digits => digits
  | .binary op lhs rhs =>
    let p := op.precedence
    let inner := lhs.operandText p false ++ " " ++ op.text ++ " " ++ rhs.operandText p true
    if p < outer || (right && p == outer) then "(" ++ inner ++ ")" else inner

/-- The text of an expression. -/
def text (e : Expr) : String :=
  e.operandText 0 false

/-- The reverse Polish form: both operands, then the operator. -/
def rpn : Expr → List String
  | .var name => [name]
  | .const digits => [digits]
  | .binary op lhs rhs => lhs.rpn ++ rhs.rpn ++ [op.text]

/-- The variables that an expression mentions. -/
def vars : Expr → NameSet
  | .var name => (∅ : NameSet).insert name
  | .const _ => ∅
  | .binary _ lhs rhs => lhs.vars ∪ rhs.vars

/-- The constants that an expression mentions. -/
def constants : Expr → NameSet
  | .var _ => ∅
  | .const digits => (∅ : NameSet).insert digits
  | .binary _ lhs rhs => lhs.constants ∪ rhs.constants

end Expr

/-! ## Conditions -/

/-- The comparison operators. -/
inductive RelOp where
  | gt
  | ge
  | lt
  | le
  | eq
  | ne
  deriving DecidableEq, Repr

/-- The operator as it is written. -/
def RelOp.text : RelOp → String
  | .gt => ">"
  | .ge => ">="
  | .lt => "<"
  | .le => "<="
  | .eq => "=="
  | .ne => "!="

/-- A condition of a `while` or an `if`. -/
inductive Cond where
  | rel (op : RelOp) (lhs rhs : Expr)
  | not (arg : Cond)
  | and (lhs rhs : Cond)
  | or (lhs rhs : Cond)
  deriving DecidableEq, Repr

namespace Cond

/-- The text of a condition; the parts of a compound one stand in parentheses. -/
def text : Cond → String
  | .rel op lhs rhs => lhs.text ++ " " ++ op.text ++ " " ++ rhs.text
  | .not arg => "!(" ++ arg.text ++ ")"
  | .and lhs rhs => "(" ++ lhs.text ++ ") && (" ++ rhs.text ++ ")"
  | .or lhs rhs => "(" ++ lhs.text ++ ") || (" ++ rhs.text ++ ")"

/-- The variables that a condition mentions. -/
def vars : Cond → NameSet
  | .rel _ lhs rhs => lhs.vars ∪ rhs.vars
  | .not arg => arg.vars
  | .and lhs rhs => lhs.vars ∪ rhs.vars
  | .or lhs rhs => lhs.vars ∪ rhs.vars

/-- The constants that a condition mentions. -/
def constants : Cond → NameSet
  | .rel _ lhs rhs => lhs.constants ∪ rhs.constants
  | .not arg => arg.constants
  | .and lhs rhs => lhs.constants ∪ rhs.constants
  | .or lhs rhs => lhs.constants ∪ rhs.constants

end Cond

end ProgramQuery
