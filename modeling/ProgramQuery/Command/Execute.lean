/-
  ProgramQuery.Command.Execute

  Carrying out commands.

  A command needs three things of its surroundings: the contents of files, a
  clock, and whether its output may be coloured.  These make up a `Host` over a
  monad.  Over `Id` a host is a fixed set of files and a command is a pure
  function of it; the outermost layer uses a host over the real world.
-/

import ProgramQuery.Command.Arguments
import ProgramQuery.Command.Fault
import ProgramQuery.Facts.OfProgram
import ProgramQuery.Report.Batch
import ProgramQuery.Report.Listing

namespace ProgramQuery

/-- The surroundings of a command. -/
structure Host (m : Type → Type) where
  /-- The text at the end of a path. -/
  contentOf : String → m (Except FileFault String)
  /-- The folder with the settings of the user. -/
  home : String
  /-- The terminal shows colours. -/
  terminal : Bool
  /-- A list of answers and the milliseconds that it took to find them. -/
  timed : (Unit → List String) → m (List String × Nat)

/-! ## Results -/

/-- Something printed, to the output or to the error output. -/
inductive Print where
  | out (text : String)
  | err (text : String)
  deriving DecidableEq, Repr

namespace Print

/-- All that goes to the output. -/
def output (prints : List Print) : String :=
  String.join (prints.map fun
    | .out text => text
    | .err _ => "")

/-- All that goes to the error output. -/
def errors (prints : List Print) : String :=
  String.join (prints.map fun
    | .out _ => ""
    | .err text => text)

end Print

/-- What came of a command. -/
structure Execution where
  prints : List Print := []
  /-- The reason if the command failed. -/
  failure : Option CommandFault := none
  /-- The command did its work and nevertheless ends with a failing status. -/
  rejected : Bool := false

/-! ## Messages of a batch -/

/-- The version of the tool. -/
def version : String := "1.0.0"

/-- The banner above a batch. -/
def banner : String :=
  let width := 38
  let bar := String.ofList (List.replicate width '─')
  let line (s : String) : String :=
    "│" ++ s ++ String.ofList (List.replicate (width - s.length) ' ') ++ "│"
  let lines := [
    "╭" ++ bar ++ "╮",
    line "",
    line "     SPA  SIMPLE  PROGRAM  ANALYZER",
    line "",
    line "     Design abstractions and PQL",
    line ("     Version: " ++ version),
    line "",
    "╰" ++ bar ++ "╯"]
  "\n" ++ Report.unlines (lines.map (Report.margin ++ ·)) ++ "\n"

/-- The last word on a batch. -/
def verdict (colored : Bool) (summary : BatchSummary) : String :=
  let line (color : Report.Color) (tag text : String) : String :=
    "[" ++ Report.paint colored color tag ++ "] " ++ text ++ "\n"
  let total := toString summary.total
  if 0 < summary.failed then
    line .brightRed "FAIL" (toString summary.failed ++ " of " ++ total ++ " queries failed")
  else
    line .brightBlue "PASS" ("all " ++ total ++ " queries passed")

/-! ## Execution -/

section

variable {m : Type → Type} [Monad m]

/-- The place of the settings if none is given. -/
def Host.settingsPath (host : Host m) : String :=
  host.home ++ "/.config/spa/config.toml"

/-- The settings in a file; the usual file may be missing, a given one may not. -/
def Host.settings (host : Host m) (path : Option String) : m (Except CommandFault Settings) := do
  let file := path.getD host.settingsPath
  match ← host.contentOf file with
  | .ok text =>
    return match Settings.read text with
      | .ok settings => .ok settings
      | .error fault => .error (.badSettings file fault)
  | .error fault =>
    return if path.isSome || fault.isPresent then .error (.unreadableSettings file fault)
      else .ok {}

/-- The program in a file. -/
def Host.program (host : Host m) (path : String) : m (Except CommandFault NumberedProgram) := do
  match ← host.contentOf path with
  | .error fault => return .error (.unreadableProgram path fault)
  | .ok text =>
    return match Program.read text with
      | .ok p => .ok p.numbered
      | .error fault => .error (.badProgram path fault)

/-- The query cases in a file. -/
def Host.cases (host : Host m) (path : String) : m (Except CommandFault (List QueryCase)) := do
  match ← host.contentOf path with
  | .error fault => return .error (.unreadableCases path fault)
  | .ok text =>
    return match QueryCase.readAll text with
      | .ok cases => .ok cases
      | .error fault => .error (.badCases path fault)

/-- The outcome of a case. -/
def Host.outcome (host : Host m) (b : FactBase) (strategy : Strategy) (c : QueryCase) :
    m Outcome := do
  let (actual, elapsed) ← host.timed fun _ => b.answer strategy c.query
  return {
    id := c.id
    comment := c.comment
    query := c.query
    expected := c.expected
    actual
    elapsed
    timeout := c.timeout }

/-- Answers the queries of a command, one report after the other. -/
def answerQueries (settings : Settings) (p : NumberedProgram) (queries : List String)
    (format : ReportFormat) : Execution :=
  let b := FactBase.ofProgram p
  { prints := queries.map fun query =>
      .out (Report.answers format query (b.answer settings.strategy query)) }

/-- Exports the graphs of a program, or of one of its procedures. -/
def exportGraphs (p : NumberedProgram) (format : Flow.ExportFormat) (procedure : Option String) :
    Execution :=
  let graphs := Flow.graphs p
  match procedure with
  | none => { prints := [.out (Flow.exportAll format graphs ++ "\n")] }
  | some name =>
    let selected := graphs.filter (·.procedure == name)
    if selected.isEmpty then
      { failure := some (.unknownProcedure name) }
    else
      { prints := [.out (Flow.exportAll format selected ++ "\n")] }

/-- Evaluates the cases of a file and reports on them. -/
def Host.runBatch (host : Host m) (settings : Settings) (source cases : String)
    (format : ReportFormat) (failOnMismatch : Bool) : m Execution := do
  let heading := if format = .text then [.err banner] else []
  let failed (fault : CommandFault) : Execution := { prints := heading, failure := some fault }
  match ← host.program source with
  | .error fault => return failed fault
  | .ok p =>
    match ← host.cases cases with
    | .error fault => return failed fault
    | .ok cs =>
      let b := FactBase.ofProgram p
      let outcomes ← cs.mapM (host.outcome b settings.strategy)
      let colored := settings.colored && host.terminal
      let summary := BatchSummary.of outcomes
      return {
        prints := heading ++ [
          .out (Report.batch format colored source outcomes),
          .err (verdict colored summary)]
        rejected := failOnMismatch && 0 < summary.failed }

/-- Carries out a command. -/
def Command.execute (host : Host m) (settings : Settings) : Command → m Execution
  | .query source queries format => do
    match ← host.program source with
    | .error fault => return { failure := some fault }
    | .ok p => return answerQueries settings p queries (format.getD settings.format)
  | .run source cases format failOnMismatch =>
    host.runBatch settings source cases (format.getD settings.format) failOnMismatch
  | .facts source format => do
    match ← host.program source with
    | .error fault => return { failure := some fault }
    | .ok p =>
      let counts := (FactBase.ofProgram p).counts
      return { prints := [.out (Report.facts (format.getD settings.format) source counts)] }
  | .graphs source format procedure => do
    match ← host.program source with
    | .error fault => return { failure := some fault }
    | .ok p => return exportGraphs p format procedure

end

end ProgramQuery
