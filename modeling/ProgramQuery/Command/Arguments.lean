/-
  ProgramQuery.Command.Arguments

  The arguments of the command line.

  Arguments before the name of a command may only give the shared parameters;
  the arguments after it belong to the command.  An argument `--name` gives a
  flag or an option, `--name=value` an option with its value, and `--` makes
  plain arguments of all that follow.

  Values are checked late: those of a parameter are collected as long as more
  may come, and settled when an argument for another parameter is met or the
  arguments end.  An argument that cannot be placed at all is noticed at once.
  So of two faults an unknown argument wins over a bad value before it, and a
  bad value over a bad one after it.
-/

import ProgramQuery.Flow.Export
import ProgramQuery.Report.Basic
import ProgramQuery.Text.Blank

namespace ProgramQuery

/-! ## Commands -/

/-- What the tool is asked to do. -/
inductive Command where
  /-- Answer queries about a program. -/
  | query (source : String) (queries : List String) (format : Option ReportFormat)
  /-- Compare the answers to the cases of a file with the expected ones. -/
  | run (source : String) (cases : String) (format : Option ReportFormat) (failOnMismatch : Bool)
  /-- Count the facts of a program. -/
  | facts (source : String) (format : Option ReportFormat)
  /-- Export control flow graphs, of one procedure or of all. -/
  | graphs (source : String) (format : Flow.ExportFormat) (procedure : Option String)
  deriving DecidableEq, Repr

/-- A command with the parameters that all commands share. -/
structure Invocation where
  debugging : Bool
  quiet : Bool
  settingsPath : Option String
  command : Command
  deriving DecidableEq, Repr

/-- Why arguments lead to no command: they are faulty, or ask for information. -/
inductive UsageNotice where
  | noArguments
  | missingCommand
  | unknownCommand
  | missingArgument
  | unknownArgument
  | badValue
  | blankQuery
  | unexpectedValue
  | repeatedArgument
  | helpWanted
  | versionWanted
  deriving DecidableEq, Repr

namespace UsageNotice

/-- The wording of a notice. -/
def message : UsageNotice → String
  | .noArguments => "no arguments were given"
  | .missingCommand => "a command is required"
  | .unknownCommand => "unrecognized command"
  | .missingArgument => "a required argument was not given"
  | .unknownArgument => "unexpected argument"
  | .badValue => "a value is missing or invalid"
  | .blankQuery => "query must not be empty"
  | .unexpectedValue => "a flag takes no value"
  | .repeatedArgument => "an argument cannot be used multiple times"
  | .helpWanted => "help"
  | .versionWanted => "version"

/-- The exit status of a notice: giving information is a success. -/
def status : UsageNotice → Nat
  | .helpWanted => 0
  | .versionWanted => 0
  | _ => 2

end UsageNotice

namespace Arguments

/-! ## Parameters -/

/-- The parameters that arguments can give. -/
inductive Parameter where
  | debug
  | quiet
  | config
  | format
  | failOnMismatch
  | procedure
  | source
  | queries
  | cases
  deriving DecidableEq, Repr

/-- How a parameter is written. -/
inductive Form where
  /-- By its name alone. -/
  | flag
  /-- By its name and a value. -/
  | option
  /-- By one plain argument. -/
  | place
  /-- By one plain argument or more. -/
  | places
  deriving DecidableEq, Repr

namespace Parameter

/-- How a parameter is written. -/
def form : Parameter → Form
  | .debug => .flag
  | .quiet => .flag
  | .config => .option
  | .format => .option
  | .failOnMismatch => .flag
  | .procedure => .option
  | .source => .place
  | .queries => .places
  | .cases => .place

/-- The name after the two dashes, for parameters that have one. -/
def name? : Parameter → Option String
  | .debug => some "debug"
  | .quiet => some "quiet"
  | .config => some "config"
  | .format => some "format"
  | .failOnMismatch => some "fail-on-mismatch"
  | .procedure => some "procedure"
  | .source => none
  | .queries => none
  | .cases => none

end Parameter

/-- The commands by their names. -/
inductive Verb where
  | query
  | run
  | facts
  | graphs
  deriving DecidableEq, Repr

namespace Verb

/-- The verb of a name. -/
def ofName? : String → Option Verb
  | "query" => some .query
  | "q" => some .query
  | "run" => some .run
  | "facts" => some .facts
  | "cfg" => some .graphs
  | _ => none

/-- The parameters of a verb, the plain ones in their order. -/
def parameters : Verb → List Parameter
  | .query => [.source, .queries, .format]
  | .run => [.source, .cases, .format, .failOnMismatch]
  | .facts => [.source, .format]
  | .graphs => [.source, .format, .procedure]

end Verb

/-- The parameters known before a verb and after it. -/
def parametersOf (verb : Option Verb) : List Parameter :=
  [.debug, .quiet, .config] ++ (verb.map Verb.parameters).getD []

/-- What is wrong with a value of a parameter. -/
def fault? (verb : Option Verb) (p : Parameter) (value : String) : Option UsageNotice :=
  let require (ok : Bool) (notice : UsageNotice) := if ok then none else some notice
  match p with
  | .config => require (!value.isEmpty) .badValue
  | .source => require (!value.isEmpty) .badValue
  | .cases => require (!value.isEmpty) .badValue
  | .queries => require (!Text.isBlankText value.toList) .blankQuery
  | .format =>
    if verb = some .graphs then
      require (Flow.ExportFormat.ofName? value).isSome .badValue
    else
      require (ReportFormat.ofName? value).isSome .badValue
  | _ => none

/-! ## Shapes of arguments -/

/-- The shape of an argument. -/
inductive Shape where
  | separator
  | long (name : String) (value : Option String)
  | short (letter : Char)
  | plain (text : String)
  deriving DecidableEq, Repr

/-- The shape of an argument before any separator. -/
def Shape.of (arg : String) : Shape :=
  match arg.toList with
  | ['-', '-'] => .separator
  | '-' :: '-' :: cs =>
    let name := String.ofList (cs.takeWhile (· != '='))
    match cs.dropWhile (· != '=') with
    | [] => .long name none
    | _ :: value => .long name (some (String.ofList value))
  | '-' :: letter :: _ => .short letter
  | _ => .plain arg

/-! ## Reading -/

/-- How far the arguments on one side of a verb have been read. -/
structure Reading where
  /-- The settled values; a flag has the empty one. -/
  given : List (Parameter × String)
  /-- A parameter whose values are not settled yet. -/
  pending : Option (Parameter × List String)
  /-- The parameters that plain arguments go to. -/
  places : List Parameter
  /-- A separator has been met. -/
  separated : Bool
  deriving DecidableEq, Repr

namespace Reading

/-- The reading before the first argument. -/
def start (verb : Option Verb) : Reading :=
  ⟨[], none, (parametersOf verb).filter fun p => p.form = .place ∨ p.form = .places, false⟩

/-- The settled values of a parameter. -/
def valuesOf (r : Reading) (p : Parameter) : List String :=
  (r.given.filter (·.1 = p)).map Prod.snd

/-- A parameter has been settled. -/
def has (r : Reading) (p : Parameter) : Bool :=
  !(r.valuesOf p).isEmpty

/-- The reading with values of a parameter settled. -/
def give (verb : Option Verb) (r : Reading) (p : Parameter) (values : List String) :
    Except UsageNotice Reading :=
  if values.isEmpty then
    .error .badValue
  else if p.form ≠ .places ∧ r.has p then
    .error .repeatedArgument
  else
    match values.findSome? (fault? verb p) with
    | some notice => .error notice
    | none => .ok { r with given := r.given ++ values.map (p, ·) }

/-- The reading without unsettled values. -/
def settle (verb : Option Verb) (r : Reading) : Except UsageNotice Reading :=
  match r.pending with
  | none => .ok r
  | some (p, values) => { r with pending := none }.give verb p values

/-- The option that waits for its value. -/
def waiting? (r : Reading) : Option Parameter :=
  match r.pending with
  | some (p, []) => if r.separated then none else some p
  | _ => none

/-- Stops to give information, once the arguments before are in order. -/
def inform (verb : Option Verb) (r : Reading) (value : Option String) (notice : UsageNotice) :
    Except UsageNotice Reading := do
  if value.isSome then
    .error .unexpectedValue
  else
    let _ ← r.settle verb
    .error notice

/-- Reads an argument with a name. -/
def addNamed (verb : Option Verb) (r : Reading) (name : String) (value : Option String) :
    Except UsageNotice Reading :=
  match (parametersOf verb).find? (·.name? == some name) with
  | none =>
    if name = "help" then r.inform verb value .helpWanted
    else if name = "version" ∧ verb = none then r.inform verb value .versionWanted
    else .error .unknownArgument
  | some p =>
    match p.form, value with
    | .flag, none => do (← r.settle verb).give verb p [""]
    | .flag, some _ => .error .unexpectedValue
    | _, none => do
      let settled ← r.settle verb
      .ok { settled with pending := some (p, []) }
    | _, some v => do (← r.settle verb).give verb p [v]

/-- Reads an argument of one dash and letters, of which the first decides. -/
def addShort (verb : Option Verb) (r : Reading) (letter : Char) : Except UsageNotice Reading :=
  if letter = 'h' then r.inform verb none .helpWanted
  else if letter = 'V' ∧ verb = none then r.inform verb none .versionWanted
  else .error .unknownArgument

/-- Reads a plain argument that goes to the next place. -/
def addPlain (verb : Option Verb) (r : Reading) (text : String) : Except UsageNotice Reading :=
  match r.places with
  | [] => .error .unknownArgument
  | p :: later =>
    match p.form, r.pending with
    | .places, some (q, values) =>
      if p = q then
        .ok { r with pending := some (p, values ++ [text]) }
      else do
        let settled ← r.settle verb
        .ok { settled with pending := some (p, [text]) }
    | form, _ => do
      let settled ← r.settle verb
      .ok { settled with
        pending := some (p, [text])
        places := if form = .places then p :: later else later }

/-- The shape of the next argument. -/
def shapeOf (r : Reading) (arg : String) : Shape :=
  if r.separated then .plain arg else .of arg

end Reading

/-! ## The arguments of a command -/

/-- Reads the arguments after a verb. -/
def readAll (verb : Verb) (r : Reading) : List String → Except UsageNotice Reading
  | [] => r.settle (some verb)
  | arg :: rest => do
    let next ← match r.shapeOf arg with
      | .separator => .ok { r with separated := true }
      | .long name value => r.addNamed (some verb) name value
      | .short letter => r.addShort (some verb) letter
      | .plain text =>
        match r.waiting? with
        | some p => .ok { r with pending := some (p, [text]) }
        | none => r.addPlain (some verb) text
    readAll verb next rest

/-- The only value of a parameter that has to be given. -/
def required (r : Reading) (p : Parameter) : Except UsageNotice String :=
  match (r.valuesOf p).head? with
  | some value => .ok value
  | none => .error .missingArgument

/-- The command that a verb and its parameters give. -/
def commandOf (verb : Verb) (r : Reading) : Except UsageNotice Command := do
  let source ← required r .source
  let format := (r.valuesOf .format).head?
  match verb with
  | .query => do
    let _ ← required r .queries
    .ok (.query source (r.valuesOf .queries) (format.bind ReportFormat.ofName?))
  | .run => do
    let cases ← required r .cases
    .ok (.run source cases (format.bind ReportFormat.ofName?) (r.has .failOnMismatch))
  | .facts => .ok (.facts source (format.bind ReportFormat.ofName?))
  | .graphs =>
    .ok (.graphs source ((format.bind Flow.ExportFormat.ofName?).getD .dot)
      (r.valuesOf .procedure).head?)

/-- The invocation from what stands before the verb and after it.  A shared
    option that is given on both sides has the value after the verb. -/
def invocationOf (before after : Reading) (command : Command) : Invocation where
  debugging := before.has .debug || after.has .debug
  quiet := before.has .quiet || after.has .quiet
  settingsPath := (after.valuesOf .config).head? <|> (before.valuesOf .config).head?
  command := command

/-! ## The arguments before a command -/

/-- What the arguments after the word `help` ask for: they may name a command. -/
def helpOn : List String → UsageNotice
  | [] => .helpWanted
  | [name] => if (Verb.ofName? name).isSome ∨ name = "help" then .helpWanted else .unknownCommand
  | _ => .unknownCommand

/-- Why a plain argument is no command.  After a separator the name of a
    command is an argument like any other. -/
def misplaced (r : Reading) (text : String) : UsageNotice :=
  if r.separated ∧ ((Verb.ofName? text).isSome ∨ text = "help") then
    .unknownArgument
  else
    .unknownCommand

/-- Reads the arguments up to the verb, and those of the verb. -/
def readFrom (r : Reading) : List String → Except UsageNotice Invocation
  | [] => do
    let settled ← r.settle none
    .error (if settled.given.isEmpty then .noArguments else .missingCommand)
  | arg :: rest =>
    match r.shapeOf arg with
    | .separator => readFrom { r with separated := true } rest
    | .long name value => do readFrom (← r.addNamed none name value) rest
    | .short letter => do readFrom (← r.addShort none letter) rest
    | .plain text =>
      match r.waiting? with
      | some p => readFrom { r with pending := some (p, [text]) } rest
      | none =>
        if r.separated then
          .error (misplaced r text)
        else if text = "help" then
          .error (helpOn rest)
        else
          match Verb.ofName? text with
          | none => .error (misplaced r text)
          | some verb => do
            let after ← readAll verb (.start (some verb)) rest
            let command ← commandOf verb after
            let before ← r.settle none
            .ok (invocationOf before after command)

/-- The invocation that the arguments of the tool give. -/
def read (args : List String) : Except UsageNotice Invocation :=
  readFrom (.start none) args

end Arguments

end ProgramQuery
