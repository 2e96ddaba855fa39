/-
  ProgramQuery.Settings.Basic

  The settings of the command line tool: how reports look, how much is logged
  and how queries are evaluated.  Whatever a document leaves out has a default,
  and what it says beyond the known keys is ignored.
-/

import ProgramQuery.Answer.Evaluate
import ProgramQuery.Report.Basic
import ProgramQuery.Settings.Document

namespace ProgramQuery

/-- The settings. -/
structure Settings where
  format : ReportFormat := .text
  colored : Bool := true
  logLevel : String := "info"
  strategy : Strategy := {}

namespace Settings

/-- Why a text does not give settings. -/
inductive Fault where
  | document (fault : DocumentFault)
  | notASection (name : String)
  | notAText (key : String)
  | notATruthValue (key : String)
  | unknownFormat (name : String)
  deriving DecidableEq, Repr

/-- The wording of a fault. -/
def Fault.message : Fault → String
  | .document fault => fault.message
  | .notASection name => "'" ++ name ++ "' must be a section"
  | .notAText key => "'" ++ key ++ "' must be a string"
  | .notATruthValue key => "'" ++ key ++ "' must be true or false"
  | .unknownFormat name => "unknown format '" ++ name ++ "'"

/-- The text of a key, or `otherwise` if the key is not there. -/
def textOf (entries : Section) (key otherwise : String) : Except Fault String :=
  match entries.lookup key with
  | none => .ok otherwise
  | some (.text value) => .ok value
  | some _ => .error (.notAText key)

/-- The truth value of a key, or `otherwise` if the key is not there. -/
def boolOf (entries : Section) (key : String) (otherwise : Bool) : Except Fault Bool :=
  match entries.lookup key with
  | none => .ok otherwise
  | some (.bool value) => .ok value
  | some _ => .error (.notATruthValue key)

/-- The section of a name, which must not be a key of the top. -/
def sectionOf (doc : Document) (name : String) : Except Fault Section :=
  if (doc.top.lookup name).isSome then .error (.notASection name) else .ok (doc.get name)

/-- The settings of a document. -/
def ofDocument (doc : Document) : Except Fault Settings := do
  let defaults : Settings := {}
  let output ← sectionOf doc "output"
  let logging ← sectionOf doc "logging"
  let engine ← sectionOf doc "engine"
  let name ← textOf output "format" defaults.format.name
  let some format := ReportFormat.ofName? name | .error (.unknownFormat name)
  return {
    format
    colored := ← boolOf output "color" defaults.colored
    logLevel := ← textOf logging "level" defaults.logLevel
    strategy := {
      optimise := ← boolOf engine "optimise" defaults.strategy.optimise
      parallel := ← boolOf engine "parallel" defaults.strategy.parallel } }

/-- The settings of a text. -/
def read (text : String) : Except Fault Settings :=
  match Document.read text with
  | .error fault => .error (.document fault)
  | .ok doc => ofDocument doc

end Settings

end ProgramQuery
