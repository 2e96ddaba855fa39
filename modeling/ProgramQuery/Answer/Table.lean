/-
  ProgramQuery.Answer.Table

  Tables of bindings, and how they are combined.

  A table has synonyms as columns and a set of rows.  The table `unit` stands for
  the truth that binds nothing: it is the identity of `join`.  A table without
  rows stands for what cannot be satisfied, and absorbs every join.
-/

import Std.Data.ExtTreeMap
import Std.Data.ExtTreeSet
import ProgramQuery.Answer.Value
import ProgramQuery.Query.Entity

namespace ProgramQuery

open Std (ExtTreeMap ExtTreeSet)

/-- A set of rows. -/
abbrev RowSet := ExtTreeSet Row

/-- A table of bindings. -/
inductive Table where
  | unit
  | bindings (columns : List Synonym) (rows : RowSet)

namespace Table

/-! ## Making tables -/

/-- The table without rows. -/
def empty (columns : List Synonym) : Table :=
  .bindings columns ∅

/-- The table of a truth value. -/
def truth (holds : Bool) : Table :=
  if holds then .unit else empty []

/-- The table of some rows; without columns, a row is all there can be. -/
def ofRows (columns : List Synonym) (rows : List Row) : Table :=
  if columns.isEmpty && !rows.isEmpty then .unit else .bindings columns (.ofList rows)

/-- The table with a single column. -/
def column (s : Synonym) (values : List Value) : Table :=
  ofRows [s] (values.map ([·]))

/-! ## Looking at tables -/

/-- The columns of a table. -/
def columns : Table → List Synonym
  | .unit => []
  | .bindings columns _ => columns

/-- The rows of a table, in ascending order. -/
def rowList : Table → List Row
  | .unit => []
  | .bindings _ rows => rows.toList

/-- Whether nothing satisfies the table. -/
def isEmpty : Table → Bool
  | .unit => false
  | .bindings _ rows => rows.isEmpty

/-- The number of rows; the unit table counts as one. -/
def size : Table → Nat
  | .unit => 1
  | .bindings _ rows => rows.size

/-! ## Columns -/

/-- The place of a column. -/
def position? (columns : List Synonym) (s : Synonym) : Option Nat :=
  columns.findIdx? (· == s)

/-- The values of a row at some places. -/
def pick (positions : List Nat) (row : Row) : Row :=
  positions.filterMap (row[·]?)

/-- The places of the columns that two tables share: the place in the first and
    the place in the second. -/
def shared (left right : List Synonym) : List (Nat × Nat) :=
  left.zipIdx.filterMap fun (c, i) => (position? right c).map (i, ·)

/-- The places of the columns that only the second table has. -/
def extra (left right : List Synonym) : List Nat :=
  (List.range right.length).filter fun i => !(shared left right).any (·.2 == i)

/-- The columns of a join. -/
def joinColumns (left right : List Synonym) : List Synonym :=
  left ++ (extra left right).filterMap (right[·]?)

/-! ## Combining tables -/

/-- Rows by their values at some places. -/
def index (positions : List Nat) (rows : List Row) : ExtTreeMap Row (List Row) :=
  rows.foldr (fun row found =>
    let key := pick positions row
    found.insert key (row :: found.getD key [])) ∅

/-- The rows of a join: a row of the first table, extended by any row of the
    second that agrees with it on the shared columns. -/
def joinRows (left right : List Synonym) (leftRows rightRows : List Row) : List Row :=
  let common := shared left right
  let more := extra left right
  let found := index (common.map Prod.snd) rightRows
  leftRows.flatMap fun row =>
    (found.getD (pick (common.map Prod.fst) row) []).map fun other => row ++ pick more other

/-- All combinations of rows that agree on the shared columns. -/
def join : Table → Table → Table
  | .unit, t => t
  | t, .unit => t
  | .bindings left leftRows, .bindings right rightRows =>
    let columns := joinColumns left right
    if leftRows.isEmpty || rightRows.isEmpty then
      empty columns
    else
      .bindings columns (.ofList (joinRows left right leftRows.toList rightRows.toList))

/-- The rows whose values on the columns of the other table are not a row of it. -/
def subtract : Table → Table → Table
  | .unit, other => truth other.isEmpty
  | .bindings columns _, .unit => empty columns
  | .bindings columns rows, .bindings otherColumns removed =>
    if removed.isEmpty then
      .bindings columns rows
    else
      let positions := otherColumns.filterMap (position? columns)
      .bindings columns (rows.filter fun row => !removed.contains (pick positions row))

/-- The rows on some columns, in this order; columns that the table does not have are left out. -/
def project (t : Table) (wanted : List Synonym) : Table :=
  match t with
  | .unit => .unit
  | .bindings columns rows =>
    let kept := wanted.filter (position? columns · |>.isSome)
    if rows.isEmpty then
      empty kept
    else
      let positions := kept.filterMap (position? columns)
      ofRows kept (rows.toList.map (pick positions))

/-- The join of some tables. -/
def joinAll (tables : List Table) : Table :=
  tables.foldl join .unit

end Table

end ProgramQuery
