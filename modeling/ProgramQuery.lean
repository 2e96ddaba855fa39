import ProgramQuery.Text.Blank
import ProgramQuery.Text.Name
import ProgramQuery.Text.Digits
import ProgramQuery.Text.Json
import ProgramQuery.Text.Invisible
import ProgramQuery.Text.Quoted
import ProgramQuery.Program.Expr
import ProgramQuery.Program.Token
import ProgramQuery.Program.Statement
import ProgramQuery.Program.Basic
import ProgramQuery.Program.Parser
import ProgramQuery.Program.Numbering
import ProgramQuery.Program.CallGraph
import ProgramQuery.Program.Pattern
import ProgramQuery.Graph.Search
import ProgramQuery.Graph.Order
import ProgramQuery.Graph.Components
import ProgramQuery.Graph.Classes
import ProgramQuery.Flow.Graph
import ProgramQuery.Flow.Export
import ProgramQuery.Facts.PairStore
import ProgramQuery.Facts.Closure
import ProgramQuery.Facts.Basic
import ProgramQuery.Facts.Derived
import ProgramQuery.Facts.OfProgram
import ProgramQuery.Query.Entity
import ProgramQuery.Query.Basic
import ProgramQuery.Query.Token
import ProgramQuery.Query.Draft
import ProgramQuery.Query.Typing
import ProgramQuery.Answer.Value
import ProgramQuery.Answer.Table
import ProgramQuery.Answer.Domain
import ProgramQuery.Answer.Clause
import ProgramQuery.Answer.Plan
import ProgramQuery.Answer.Order
import ProgramQuery.Answer.Evaluate
import ProgramQuery.Report.Basic
import ProgramQuery.Report.Listing
import ProgramQuery.Report.Batch
import ProgramQuery.Batch.Case
import ProgramQuery.Settings.LogLevel
import ProgramQuery.Settings.Document
import ProgramQuery.Settings.Basic
import ProgramQuery.Command.Arguments
import ProgramQuery.Command.Files
import ProgramQuery.Command.Fault
import ProgramQuery.Command.Execute
import ProgramQuery.Command.Tool
import ProgramQuery.Main
import ProgramQuery.Proofs.Graph.Search
import ProgramQuery.Proofs.Graph.Order
import ProgramQuery.Proofs.Graph.Stack
import ProgramQuery.Proofs.Graph.Components
import ProgramQuery.Proofs.Facts.PairStore
import ProgramQuery.Proofs.Facts.Components
import ProgramQuery.Proofs.Facts.Closure
import ProgramQuery.Proofs.Facts.Ascending
import ProgramQuery.Proofs.Facts.Base
import ProgramQuery.Proofs.Program.Tree
import ProgramQuery.Proofs.Program.Unfold
import ProgramQuery.Proofs.Program.Reader
import ProgramQuery.Proofs.Program.Layout
import ProgramQuery.Proofs.Program.Parser
import ProgramQuery.Proofs.Program.Read
import ProgramQuery.Proofs.Program.Forest
import ProgramQuery.Proofs.Program.Descent
import ProgramQuery.Proofs.Program.Calls
import ProgramQuery.Proofs.Program.CallOrder
import ProgramQuery.Proofs.Facts.OfProgram
import ProgramQuery.Proofs.Facts.Effects
import ProgramQuery.Proofs.Flow.Paths
import ProgramQuery.Proofs.Flow.NextStar
import ProgramQuery.Proofs.Query.Typed
import ProgramQuery.Proofs.Query.Sense
import ProgramQuery.Proofs.Answer.Table
import ProgramQuery.Proofs.Answer.Algebra
import ProgramQuery.Proofs.Answer.Domain
import ProgramQuery.Proofs.Answer.Clause
import ProgramQuery.Proofs.Answer.Plan
import ProgramQuery.Proofs.Answer.Evaluate
import ProgramQuery.Proofs.Answer.Meaning
import ProgramQuery.Proofs.Answer.Shapes
import ProgramQuery.Proofs.Answer.Regular
import ProgramQuery.Proofs.Answer.Complete
import ProgramQuery.Proofs.Facts.Affects
import ProgramQuery.Proofs.Flow.Successors
import ProgramQuery.Proofs.Text.Words
import ProgramQuery.Proofs.Text.Lines
import ProgramQuery.Proofs.Program.Lexical
import ProgramQuery.Proofs.Program.Pattern
import ProgramQuery.Proofs.Facts.Stars
import ProgramQuery.Proofs.Facts.WriteOrder
import ProgramQuery.Proofs.Answer.Checked
import ProgramQuery.Proofs.Program.Grammar
import ProgramQuery.Proofs.Program.Phrases
import ProgramQuery.Proofs.Program.Recognise
import ProgramQuery.Proofs.Query.Grammar
import ProgramQuery.Proofs.Query.Recognise
import ProgramQuery.Proofs.Program.Faults
import ProgramQuery.Proofs.Answer.SameSynonym
import ProgramQuery.Proofs.Answer.Complement
import ProgramQuery.Proofs.Query.Declared
import ProgramQuery.Proofs.Answer.Partition
import ProgramQuery.Proofs.Program.Scan
import ProgramQuery.Proofs.Program.Lexemes
import ProgramQuery.Proofs.Program.Slices
import ProgramQuery.Proofs.Program.Printing
import ProgramQuery.Proofs.Facts.Nesting
import ProgramQuery.Proofs.Facts.Integrity
import ProgramQuery.Proofs.Answer.Words
import ProgramQuery.Proofs.Answer.Order
import ProgramQuery.Proofs.Answer.Strict
import ProgramQuery.Proofs.Program.Numbers
import ProgramQuery.Proofs.Facts.Recursion
import ProgramQuery.Proofs.Program.Literals
import ProgramQuery.Proofs.Answer.Integers
import ProgramQuery.Proofs.Batch.RoundTrip
