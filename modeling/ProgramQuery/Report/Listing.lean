/-
  ProgramQuery.Report.Listing

  The reports on a single query and on the facts of a program.
-/

import ProgramQuery.Facts.Derived
import ProgramQuery.Report.Basic

namespace ProgramQuery.Report

open Text (Json)

/-- The answers of one query: on one line, or `none`. -/
def answers (format : ReportFormat) (query : String) (answers : List String) : String :=
  match format with
  | .text => unlines [if answers.isEmpty then "none" else String.intercalate ", " answers]
  | .json =>
    document (.object [
      ("query", .text query),
      ("answers", .texts answers),
      ("total", .number answers.length)])

/-- How many facts of each kind a program has. -/
def facts (format : ReportFormat) (source : String) (counts : FactCounts) : String :=
  match format with
  | .text =>
    unlines (framed "Program Knowledge Base" ++
      ["", margin ++ "Source: " ++ source, "", row "Fact" "Count", rule] ++
      counts.entries.map fun e => row e.label (toString e.count))
  | .json =>
    document (.object [
      ("source", .text source),
      ("facts", .object (counts.entries.map fun e => (e.key, Json.number e.count)))])

end ProgramQuery.Report
