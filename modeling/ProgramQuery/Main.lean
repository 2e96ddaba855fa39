/-
  ProgramQuery.Main

  The command line tool: the real files, clock and terminal around `runTool`.
-/

import ProgramQuery.Command.Tool

namespace ProgramQuery

/-- The output is a terminal, and nothing asks for output without colours. -/
def terminalShowsColors : IO Bool := do
  for name in ["NO_COLOR", "CI", "CONTINUOUS_INTEGRATION"] do
    if (← IO.getEnv name).isSome then
      return false
  if let some terminal ← IO.getEnv "TERM" then
    if terminal == "dumb" || terminal == "unknown" then
      return false
  (← IO.getStdout).isTty

/-- The answers and the milliseconds that it took to find them. -/
def timedAnswers (answers : Unit → List String) : IO (List String × Nat) := do
  let start ← IO.monoMsNow
  let found ← IO.lazyPure answers
  let stop ← IO.monoMsNow
  return (found, stop - start)

/-- The fault behind an error of the system; the codes are those of a folder read as
    a file and of a name with a null character. -/
def FileFault.ofError : IO.Error → FileFault
  | .inappropriateType _ 21 _ => .isFolder
  | .inappropriateType .. => .notAFolder
  | .invalidArgument _ 22 _ => .badName
  | .invalidArgument .. => .nameTooLong
  | .permissionDenied .. => .forbidden
  | .userError _ => .notText
  | _ => .missing

/-- The text at the end of a path. -/
def fileContent (path : String) : IO (Except FileFault String) := do
  try
    return .ok (← IO.FS.readFile path)
  catch e =>
    return .error (.ofError e)

/-- The surroundings of the running tool. -/
def realHost : IO (Host IO) := do
  return {
    contentOf := fileContent
    home := (← IO.getEnv "HOME").getD "."
    terminal := ← terminalShowsColors
    timed := timedAnswers }

/-- Prints to one of the two outputs. -/
def Print.emit : Print → IO Unit
  | .out text => IO.print text
  | .err text => IO.eprint text

end ProgramQuery

/-- Runs the tool on the arguments of the command line. -/
def main (args : List String) : IO UInt32 := do
  let exit ← ProgramQuery.runTool (← ProgramQuery.realHost) args
  exit.prints.forM ProgramQuery.Print.emit
  return exit.status.toUInt32
