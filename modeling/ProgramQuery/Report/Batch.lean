/-
  ProgramQuery.Report.Batch

  The outcome of a batch of query cases.  A case passes when its answers and
  the expected ones agree as sets; a timeout is reported and fails nothing.
-/

import ProgramQuery.Report.Basic
import ProgramQuery.Text.Digits

namespace ProgramQuery

open Text (Json)

/-- A query case after its evaluation; times are in milliseconds. -/
structure Outcome where
  id : String
  comment : String
  query : String
  expected : List String
  actual : List String
  elapsed : Nat
  timeout : Option Nat
  deriving DecidableEq, Repr

namespace Outcome

/-- The evaluation took longer than it was allowed to. -/
def timedOut (o : Outcome) : Bool :=
  o.timeout.any (· < o.elapsed)

/-- The expected answers that were not given. -/
def missing (o : Outcome) : List String :=
  o.expected.filter (!o.actual.contains ·)

/-- The given answers that were not expected. -/
def unexpected (o : Outcome) : List String :=
  o.actual.filter (!o.expected.contains ·)

/-- The answers agree with the expected ones as sets: none is missing and none
    is unexpected. -/
def passed (o : Outcome) : Bool :=
  o.missing.isEmpty && o.unexpected.isEmpty

end Outcome

/-- The counts of a batch; its duration is counted in 64 bits. -/
structure BatchSummary where
  total : Nat
  passed : Nat
  failed : Nat
  timedOut : Nat
  duration : Nat
  deriving DecidableEq, Repr

/-- The counts of a list of outcomes. -/
def BatchSummary.of (outcomes : List Outcome) : BatchSummary where
  total := outcomes.length
  passed := outcomes.countP Outcome.passed
  failed := outcomes.length - outcomes.countP Outcome.passed
  timedOut := outcomes.countP Outcome.timedOut
  duration := (outcomes.map Outcome.elapsed).foldl (· + ·) 0 % (Text.max64 + 1)

namespace Report

/-! ## Plain text -/

/-- A remark below an outcome, if there is something to remark. -/
def remark (heading : String) (items : List String) : List String :=
  if items.isEmpty then
    []
  else
    [margin ++ "• " ++ heading ++ ": " ++ String.intercalate ", " items]

/-- The lines on one outcome. -/
def outcomeLines (colored : Bool) (o : Outcome) : List String :=
  let mark := if o.passed then paint colored .green "✔" else paint colored .red "✘"
  [mark ++ " " ++ o.id ++ " - " ++ o.comment ++ " (" ++ toString o.elapsed ++ "ms)"] ++
    (if o.passed then [] else
      [margin ++ o.query] ++ remark "Missing" o.missing ++ remark "Unexpected" o.unexpected) ++
    (if o.timedOut then
      [margin ++ "• Exceeded timeout of " ++ toString (o.timeout.getD 0) ++ "ms"]
    else [])

/-- The table at the end of a batch. -/
def summaryLines (colored : Bool) (source : String) (s : BatchSummary) : List String :=
  let failed := toString s.failed
  [margin ++ "SUMMARY", rule,
    row "Source" source,
    row "Queries" (toString s.total),
    row "Passed" (paint colored .green (toString s.passed)),
    row "Failed" (if 0 < s.failed then paint colored .red failed else failed),
    row "Timed out" (toString s.timedOut),
    row "Duration" (toString s.duration ++ "ms")]

/-! ## Documents -/

/-- One outcome as a document. -/
def outcomeDocument (o : Outcome) : Json :=
  .object ([
    ("id", .text o.id),
    ("comment", .text o.comment),
    ("query", .text o.query),
    ("expected", .texts o.expected),
    ("actual", .texts o.actual),
    ("elapsed_ms", .number o.elapsed)] ++
    (o.timeout.toList.map fun t => ("timeout_ms", Json.number t)) ++
    [("passed", .bool o.passed)])

/-- The counts of a batch as a document. -/
def summaryDocument (s : BatchSummary) : Json :=
  .object [
    ("total", .number s.total),
    ("passed", .number s.passed),
    ("failed", .number s.failed),
    ("timed_out", .number s.timedOut),
    ("duration_ms", .number s.duration)]

/-- The report on a batch. -/
def batch (format : ReportFormat) (colored : Bool) (source : String) (outcomes : List Outcome) :
    String :=
  let summary := BatchSummary.of outcomes
  match format with
  | .text =>
    unlines (framed "Query Results" ++ [""] ++ outcomes.flatMap (outcomeLines colored) ++ [""] ++
      summaryLines colored source summary)
  | .json =>
    document (.object [
      ("source", .text source),
      ("queries", .list (outcomes.map outcomeDocument)),
      ("summary", summaryDocument summary)])

end Report

end ProgramQuery
