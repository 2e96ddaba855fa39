/-
  ProgramQuery.Program.Pattern

  Matching expressions by their reverse Polish form.

  A pattern is the reverse Polish form of an expression.  An expression matches it
  as a whole when the two forms are the same, and in part when the pattern
  occurs in its form as a contiguous window.
-/

namespace ProgramQuery

/-- How a pattern is compared with an expression. -/
inductive MatchMode where
  | whole
  | part
  deriving DecidableEq, Repr

/-- Whether `pattern` occurs in `form` as a contiguous window. -/
def isWindow (pattern : List String) : List String → Bool
  | [] => pattern.isEmpty
  | x :: rest => pattern.isPrefixOf (x :: rest) || isWindow pattern rest

/-- Whether a form matches a pattern; nothing contains the empty pattern. -/
def MatchMode.accepts (mode : MatchMode) (pattern form : List String) : Bool :=
  match mode with
  | .whole => form == pattern
  | .part => !pattern.isEmpty && isWindow pattern form

end ProgramQuery
