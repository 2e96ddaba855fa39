/-
  ProgramQuery.Command.Tool

  The tool as a whole: arguments in, prints and an exit status out.  A command
  that works ends with status zero, a failing one with one, and arguments that
  give no command with two unless they ask for information.
-/

import ProgramQuery.Command.Execute
import ProgramQuery.Settings.LogLevel

namespace ProgramQuery

/-- The log level of an invocation. -/
def Invocation.logLevel (i : Invocation) (settings : Settings) : LogLevel :=
  LogLevel.resolve i.debugging i.quiet settings.logLevel

/-- The end of the tool: what it printed and its exit status. -/
structure Exit where
  prints : List Print
  status : Nat
  deriving DecidableEq, Repr

/-- The end of the tool after a fault. -/
def Exit.failure (prints : List Print) (fault : CommandFault) : Exit :=
  ⟨prints ++ [.err fault.report], 1⟩

/-- How the tool is used. -/
def usage : String :=
  Report.unlines [
    "Usage: spa [--debug] [--quiet] [--config PATH] COMMAND",
    "",
    "Commands:",
    "  query SOURCE QUERIES... [--format text|json]",
    "  run SOURCE QUERIES [--format text|json] [--fail-on-mismatch]",
    "  facts SOURCE [--format text|json]",
    "  cfg SOURCE [--format dot|mermaid|json] [--procedure NAME]"]

/-- The end of the tool after a notice on its usage. -/
def Exit.notice (notice : UsageNotice) : Exit :=
  let prints :=
    match notice with
    | .versionWanted => [.out ("spa " ++ version ++ "\n")]
    | .helpWanted => [.out usage]
    | .noArguments => [.err usage]
    | _ => [.err ("error: " ++ notice.message ++ "\n\n" ++ usage)]
  ⟨prints, notice.status⟩

/-- The end of the tool after a command. -/
def Execution.exit (e : Execution) : Exit :=
  match e.failure with
  | some fault => .failure e.prints fault
  | none => ⟨e.prints, if e.rejected then 1 else 0⟩

/-! ## The whole tool -/

/-- Reads the arguments and settings and carries out the command. -/
def runTool {m : Type → Type} [Monad m] (host : Host m) (args : List String) : m Exit := do
  match Arguments.read args with
  | .error notice => return .notice notice
  | .ok invocation =>
    match ← host.settings invocation.settingsPath with
    | .error fault => return .failure [] fault
    | .ok settings => return (← invocation.command.execute host settings).exit

end ProgramQuery
