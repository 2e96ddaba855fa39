/-
  ProgramQuery.Command.Fault

  The ways in which a command fails, and how a failure is reported: a message,
  and below it what lies behind it.
-/

import ProgramQuery.Batch.Case
import ProgramQuery.Command.Files
import ProgramQuery.Program.Parser
import ProgramQuery.Report.Basic
import ProgramQuery.Settings.Basic

namespace ProgramQuery

/-- Why a command fails. -/
inductive CommandFault where
  | unreadableSettings (path : String) (fault : FileFault)
  | badSettings (path : String) (fault : Settings.Fault)
  | unreadableProgram (path : String) (fault : FileFault)
  | badProgram (path : String) (fault : ProgramFault)
  | unreadableCases (path : String) (fault : FileFault)
  | badCases (path : String) (fault : CaseFault)
  | unknownProcedure (name : String)

namespace CommandFault

/-- The wording of a fault. -/
def message : CommandFault → String
  | .unreadableSettings path _ => "failed to read " ++ path
  | .badSettings path _ => "failed to parse " ++ path
  | .unreadableProgram path _ => "Failed to read file: " ++ path
  | .badProgram path _ => "Failed to parse " ++ path
  | .unreadableCases path _ => "failed to read " ++ path
  | .badCases path _ => "failed to parse " ++ path
  | .unknownProcedure name => "procedure '" ++ name ++ "' not found"

/-- The wordings of what lies behind a fault, outermost first. -/
def causes : CommandFault → List String
  | .unreadableSettings _ fault => [fault.message]
  | .badSettings _ fault => [fault.message]
  | .unreadableProgram _ fault => [fault.message]
  | .badProgram _ fault => [fault.message]
  | .unreadableCases _ fault => [fault.message]
  | .badCases _ fault => fault.message :: fault.causes
  | .unknownProcedure _ => []

/-- The report on a fault with its causes, which are numbered if there are several. -/
def report (fault : CommandFault) : String :=
  let causes := fault.causes
  let number (n : Nat) : String := if causes.length = 1 then "" else toString n ++ ": "
  let heading := if causes.isEmpty then [] else ["", "Caused by:"]
  Report.unlines (["Error: " ++ fault.message] ++ heading ++
    causes.mapIdx fun n cause => Report.margin ++ number n ++ cause)

end CommandFault

end ProgramQuery
