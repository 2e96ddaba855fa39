/-
  ProgramQuery.Batch.Case

  Files of query cases.  A case is a block of five lines: a heading with an
  identifier and a comment, the declarations, the selection, the expected
  answers, and a time limit that may be left out.  Blank lines between blocks
  are skipped; inside a block every line counts.

      1 - statements after the first
      stmt s;
      Select s such that Follows*(1, s)
      2, 3
      5000
-/

import ProgramQuery.Text.Blank
import ProgramQuery.Text.Digits

namespace ProgramQuery

/-- A query with the answers that are expected of it; the timeout is in milliseconds. -/
structure QueryCase where
  id : String
  comment : String
  query : String
  expected : List String
  timeout : Option Nat
  deriving DecidableEq, Repr

/-! ## Faults -/

/-- Why a file of cases is refused; lines are counted from one. -/
inductive CaseFault where
  | shortBlock (line : Nat)
  | badTimeout (text : String) (line : Nat) (cause : Text.NumberFault)
  deriving DecidableEq, Repr

namespace CaseFault

/-- The wording of a fault. -/
def message : CaseFault → String
  | .shortBlock line =>
    "query block starting on line " ++ toString line ++ " has fewer than five lines"
  | .badTimeout text line _ => "invalid timeout '" ++ text ++ "' on line " ++ toString line

/-- The wordings of what lies behind a fault. -/
def causes : CaseFault → List String
  | .shortBlock _ => []
  | .badTimeout _ _ cause => [cause.message]

end CaseFault

namespace QueryCase

/-! ## The lines of a block -/

/-- The two parts of a text around the first place where `separator` stands. -/
def cutAt? (separator : List Char) : List Char → Option (List Char × List Char)
  | [] => none
  | c :: cs =>
    if separator.isPrefixOf (c :: cs) then
      some ([], (c :: cs).drop separator.length)
    else
      (cutAt? separator cs).map fun (before, after) => (c :: before, after)

/-- The identifier and the comment of a heading. -/
def readHeading (line : List Char) : List Char × List Char :=
  match cutAt? [' ', '-', ' '] line with
  | some (id, comment) => (Text.trim id, Text.trim comment)
  | none => (Text.trim line, [])

/-- The query that is spread over the lines of declarations and selection. -/
def joinQuery (declarations selection : List Char) : List Char :=
  Text.trim (Text.trim declarations ++ ' ' :: Text.trim selection)

/-- The answers of a line, which commas separate. -/
def readExpected (line : List Char) : List (List Char) :=
  ((Text.pieces (· == ',') line).map Text.squeeze).filter (!·.isEmpty)

/-- The time limit on the line with the given number. -/
def readTimeout (number : Nat) (line : List Char) : Except CaseFault (Option Nat) :=
  let digits := Text.trim line
  if digits.isEmpty then
    .ok none
  else
    match Text.readNumber Text.max64 digits with
    | .ok limit => .ok (some limit)
    | .error cause => .error (.badTimeout (String.ofList digits) number cause)

/-! ## Files -/

/-- The cases on the lines of a file from the line with the given number on. -/
def readLines : Nat → List (List Char) → Except CaseFault (List QueryCase)
  | _, [] => .ok []
  | number, heading :: rest =>
    if Text.isBlankText heading then
      readLines (number + 1) rest
    else
      match rest with
      | declarations :: selection :: expected :: timeout :: others => do
        let (id, comment) := readHeading heading
        let limit ← readTimeout (number + 4) timeout
        let later ← readLines (number + 5) others
        .ok ({
          id := String.ofList id
          comment := String.ofList comment
          query := String.ofList (joinQuery declarations selection)
          expected := (readExpected expected).map String.ofList
          timeout := limit } :: later)
      | _ => .error (.shortBlock number)

/-- The cases of a file. -/
def readAll (text : String) : Except CaseFault (List QueryCase) :=
  readLines 1 (Text.lines text.toList)

end QueryCase

end ProgramQuery
