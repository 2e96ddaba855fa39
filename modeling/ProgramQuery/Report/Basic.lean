/-
  ProgramQuery.Report.Basic

  What every report shares: the choice between plain text and JSON, the frame
  around a title, the ruled line, and colours for a terminal.
-/

import ProgramQuery.Text.Json

namespace ProgramQuery

/-- The two forms of a report. -/
inductive ReportFormat where
  | text
  | json
  deriving DecidableEq, Repr

namespace ReportFormat

/-- The name of a format. -/
def name : ReportFormat → String
  | .text => "text"
  | .json => "json"

/-- The format of a name, which is in lower case. -/
def ofName? (s : String) : Option ReportFormat :=
  [text, json].find? (·.name == s)

/-- The format of a name in any case.  Only ASCII letters have one of the
    letters of these names as their lower case. -/
def ofText? (s : String) : Option ReportFormat :=
  ofName? (String.ofList (s.toList.map Char.toLower))

end ReportFormat

namespace Report

/-! ## Plain text -/

/-- The lines of a report, each with its line end. -/
def unlines (ls : List String) : String :=
  String.join (ls.map (· ++ "\n"))

/-- A title in a frame, as three lines. -/
def framed (title : String) : List String :=
  let bar := String.ofList (List.replicate (title.length + 2) '─')
  ["╭" ++ bar ++ "╮", "│ " ++ title ++ " │", "╰" ++ bar ++ "╯"]

/-- The indentation of everything below a title. -/
def margin : String := "    "

/-- The line between the heading of a table and its rows. -/
def rule : String :=
  margin ++ String.ofList (List.replicate 78 '─')

/-- A label filled up with spaces to the width of its column. -/
def column (label : String) : String :=
  label ++ String.ofList (List.replicate (25 - label.length) ' ')

/-- A row of a table: a label and what belongs to it. -/
def row (label value : String) : String :=
  margin ++ column label ++ " " ++ value

/-! ## Colours -/

/-- The colours a terminal is asked for. -/
inductive Color where
  | green
  | red
  | brightBlue
  | brightRed
  deriving DecidableEq, Repr

/-- The terminal's parameters for a colour; the bright ones are also bold. -/
def Color.parameters : Color → String
  | .green => "32"
  | .red => "31"
  | .brightBlue => "1;94"
  | .brightRed => "1;91"

/-- A text in a colour, if colours are wanted. -/
def paint (colored : Bool) (color : Color) (s : String) : String :=
  if colored then "\x1b[" ++ color.parameters ++ "m" ++ s ++ "\x1b[0m" else s

/-! ## Documents -/

/-- A document with its final line end. -/
def document (doc : Text.Json) : String :=
  doc.pretty ++ "\n"

end Report

end ProgramQuery
