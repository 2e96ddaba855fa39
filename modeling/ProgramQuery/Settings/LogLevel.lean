/-
  ProgramQuery.Settings.LogLevel

  How much is logged, and how the level is found from the command line and the
  settings.
-/

import ProgramQuery.Text.Digits

namespace ProgramQuery

/-- The levels, from silence to everything. -/
inductive LogLevel where
  | off
  | error
  | warn
  | info
  | debug
  | trace
  deriving DecidableEq, Repr

namespace LogLevel

/-- The levels in ascending order. -/
def all : List LogLevel := [off, error, warn, info, debug, trace]

/-- The name of a level. -/
def name : LogLevel → String
  | .off => "off"
  | .error => "error"
  | .warn => "warn"
  | .info => "info"
  | .debug => "debug"
  | .trace => "trace"

/-- The level of a text: its place from zero on, or its name in any case; the
    empty text stands for errors. -/
def ofText? (s : String) : Option LogLevel :=
  let byNumber := (Text.readNumber Text.max64 s.toList).toOption.bind (all[·]?)
  let byName :=
    if s.isEmpty then
      some error
    else
      all.find? fun level => level.name.toList == s.toList.map Char.toLower
  byNumber <|> byName

/-- The level in force: `quiet` wins over `debug`, and both win over the
    configured text.  A text that names no level means `info`. -/
def resolve (debugging quiet : Bool) (configured : String) : LogLevel :=
  if quiet then .off
  else if debugging then .debug
  else (ofText? configured).getD .info

end LogLevel

end ProgramQuery
