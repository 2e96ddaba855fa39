/-
  ProgramQuery.Text.Name

  The shape of names, shared by programs and queries: an ASCII letter, then
  ASCII letters and digits.  Sets of names are equal when
  they have the same members, and list them in ascending order.
-/

import Std.Data.ExtTreeSet

namespace ProgramQuery.Text

/-- A text that is a name. -/
def isName : List Char → Bool
  | [] => false
  | c :: cs => c.isAlpha && cs.all Char.isAlphanum

/-- A string that is a name. -/
def isNameString (s : String) : Bool :=
  isName s.toList

end ProgramQuery.Text

namespace ProgramQuery

/-- A set of names, listed in ascending order. -/
abbrev NameSet := Std.ExtTreeSet String

end ProgramQuery
