/-
  ProgramQuery.Answer.Order

  The order of answers.

  Answers are compared field by field, fields being separated by single spaces.
  Fields that are numbers of 64 bits are compared by value and come before all
  others, which are compared as texts.
-/

import ProgramQuery.Text.Blank
import ProgramQuery.Text.Digits

namespace ProgramQuery.Answer

/-- The number that a field denotes. -/
def fieldNumber? (field : List Char) : Option Nat :=
  (Text.readNumber Text.max64 field).toOption

/-- The order of fields. -/
def fieldOrder (x y : List Char) : Ordering :=
  match fieldNumber? x, fieldNumber? y with
  | some n, some m => compare n m
  | some _, none => .lt
  | none, some _ => .gt
  | none, none => compare (String.ofList x) (String.ofList y)

/-- The order of lists of fields; of two lists, one of which starts the other,
    the shorter comes first. -/
def fieldsOrder : List (List Char) → List (List Char) → Ordering
  | [], [] => .eq
  | [], _ :: _ => .lt
  | _ :: _, [] => .gt
  | x :: xs, y :: ys =>
    match fieldOrder x y with
    | .eq => fieldsOrder xs ys
    | order => order

/-- The fields of an answer. -/
def fields (answer : String) : List (List Char) :=
  Text.pieces (· == ' ') answer.toList

/-- The order of answers. -/
def order (a b : String) : Ordering :=
  fieldsOrder (fields a) (fields b)

/-- Answers in order; answers that the order does not tell apart stay as they are. -/
def sort (answers : List String) : List String :=
  answers.mergeSort fun a b => (order a b).isLE

end ProgramQuery.Answer
