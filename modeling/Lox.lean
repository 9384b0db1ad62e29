import Lox.Command.Arguments
import Lox.Command.Repl
import Lox.Command.Run
import Lox.Decimal.Layout
import Lox.Decimal.Shortest
import Lox.Diagnostic
import Lox.Document
import Lox.Eval.Machine
import Lox.Eval.Native
import Lox.Eval.Run
import Lox.Files.Path
import Lox.Files.Tree
import Lox.Files.Utf8
import Lox.Main
import Lox.Native.Table
import Lox.Note
import Lox.Parse.Expression
import Lox.Parse.Program
import Lox.Parse.State
import Lox.Parse.Statement
import Lox.Proofs.Acceptance
import Lox.Proofs.Activities
import Lox.Proofs.Brackets
import Lox.Proofs.Budget
import Lox.Proofs.Commands.Agreement
import Lox.Proofs.Commands.Paths
import Lox.Proofs.Completion
import Lox.Proofs.Context.Rendering
import Lox.Proofs.Context.Restoring
import Lox.Proofs.Context.Sessions
import Lox.Proofs.Context.Unfolding
import Lox.Proofs.Dispatch.Declarations
import Lox.Proofs.Dispatch.Evaluation
import Lox.Proofs.Dispatch.Ledger
import Lox.Proofs.Dispatch.Operations
import Lox.Proofs.Dispatch.Runs
import Lox.Proofs.Dispatch.Steps
import Lox.Proofs.Dispatch.Surroundings
import Lox.Proofs.Distances
import Lox.Proofs.Equality
import Lox.Proofs.Forests
import Lox.Proofs.Frames
import Lox.Proofs.FreshSessions
import Lox.Proofs.Grammar
import Lox.Proofs.Histories
import Lox.Proofs.Imports.Assembly
import Lox.Proofs.Imports.Course
import Lox.Proofs.Imports.Expansion
import Lox.Proofs.Imports.Failures
import Lox.Proofs.Imports.Outcomes
import Lox.Proofs.Imports.Progress
import Lox.Proofs.Imports.Rounds
import Lox.Proofs.Imports.Whole
import Lox.Proofs.Joining.Reading
import Lox.Proofs.Joining.Resolving
import Lox.Proofs.Joining.Units
import Lox.Proofs.Legible.Lexical
import Lox.Proofs.Legible.Lines
import Lox.Proofs.Legible.Outlines
import Lox.Proofs.Legible.Parsed
import Lox.Proofs.Legible.Prefixed
import Lox.Proofs.Legible.Quotes
import Lox.Proofs.Legible.Trees
import Lox.Proofs.Links.Chains
import Lox.Proofs.Links.Evaluation
import Lox.Proofs.Links.Operations
import Lox.Proofs.Links.Runs
import Lox.Proofs.Links.Steps
import Lox.Proofs.Loops.Reference
import Lox.Proofs.Loops.Rounds
import Lox.Proofs.Loops.Runs
import Lox.Proofs.Loops.Trees
import Lox.Proofs.Mapping
import Lox.Proofs.Natives.Evaluation
import Lox.Proofs.Natives.Operations
import Lox.Proofs.Natives.Regular
import Lox.Proofs.Natives.Reports
import Lox.Proofs.Numbering.Blocks
import Lox.Proofs.Numbering.Evaluation
import Lox.Proofs.Numbering.Machines
import Lox.Proofs.Numbering.Orders
import Lox.Proofs.Numbering.Sources
import Lox.Proofs.Numbering.Steps
import Lox.Proofs.Numerals.Integers
import Lox.Proofs.Numerals.Paper
import Lox.Proofs.Numerals.Rounding
import Lox.Proofs.Padding.Frames
import Lox.Proofs.Padding.Programs
import Lox.Proofs.Parsing.Derivations
import Lox.Proofs.Parsing.Expressions
import Lox.Proofs.Parsing.Leads
import Lox.Proofs.Parsing.Parts
import Lox.Proofs.Parsing.Productions
import Lox.Proofs.Parsing.Program
import Lox.Proofs.Parsing.Statements
import Lox.Proofs.Parsing.Steps
import Lox.Proofs.Parsing.Unparse
import Lox.Proofs.Powers.Forms
import Lox.Proofs.Powers.Rounds
import Lox.Proofs.Powers.Sessions
import Lox.Proofs.Preservation.Evaluation
import Lox.Proofs.Preservation.Judgements
import Lox.Proofs.Printing.Digits
import Lox.Proofs.Printing.Doubles
import Lox.Proofs.Printing.Evaluation
import Lox.Proofs.Printing.Reading
import Lox.Proofs.Recovery.Past
import Lox.Proofs.Recovery.Sequels
import Lox.Proofs.Recovery.Statements
import Lox.Proofs.Registrations
import Lox.Proofs.Relocation
import Lox.Proofs.Renaming.Frames
import Lox.Proofs.Renaming.Locals
import Lox.Proofs.Renaming.Occurrences
import Lox.Proofs.Renaming.Programs
import Lox.Proofs.Renaming.Scopes
import Lox.Proofs.Renaming.Sources
import Lox.Proofs.Renaming.Units
import Lox.Proofs.Resolution.Agreement
import Lox.Proofs.Resolution.Composition
import Lox.Proofs.Resolution.Slots
import Lox.Proofs.Resolution.Walk
import Lox.Proofs.Returns.Completions
import Lox.Proofs.Returns.Runs
import Lox.Proofs.Returns.Traces
import Lox.Proofs.Scanning.Comments
import Lox.Proofs.Scanning.Gaps
import Lox.Proofs.Scanning.Lines
import Lox.Proofs.Scanning.Respelling
import Lox.Proofs.Scoping.Agreement
import Lox.Proofs.Scoping.Chains
import Lox.Proofs.Scoping.Order
import Lox.Proofs.Scoping.Places
import Lox.Proofs.Scoping.Resolved
import Lox.Proofs.Scoping.Runs
import Lox.Proofs.Simulation.Comparison
import Lox.Proofs.Simulation.Errors
import Lox.Proofs.Simulation.Evaluation
import Lox.Proofs.Simulation.Natives
import Lox.Proofs.Simulation.Operations
import Lox.Proofs.Simulation.Plain
import Lox.Proofs.Simulation.Relations
import Lox.Proofs.Simulation.Reporting
import Lox.Proofs.Simulation.Steps
import Lox.Proofs.Simulation.Units
import Lox.Proofs.Simulation.Values
import Lox.Proofs.Spelling
import Lox.Proofs.Tiling
import Lox.Proofs.Tokens
import Lox.Proofs.Traces
import Lox.Proofs.Typed.Closings
import Lox.Proofs.Typed.Echo
import Lox.Proofs.Typed.Semicolons
import Lox.Proofs.Typed.Shortened
import Lox.Proofs.Vacancy.Chronicles
import Lox.Proofs.Vacancy.Concealment
import Lox.Proofs.Vacancy.Declarations
import Lox.Proofs.Vacancy.Evaluation
import Lox.Proofs.Vacancy.Marks
import Lox.Proofs.Vacancy.Runs
import Lox.Proofs.Vacancy.Steps
import Lox.Proofs.Vectors.Evaluation
import Lox.Proofs.Vectors.Lists
import Lox.Proofs.Vectors.Operations
import Lox.Proofs.Vectors.Runs
import Lox.Proofs.Violations.Counting
import Lox.Proofs.Violations.Listed
import Lox.Proofs.Violations.Survey
import Lox.Proofs.WellFormed
import Lox.Proofs.Wrapping.Frames
import Lox.Proofs.Wrapping.Programs
import Lox.Proofs.Wrapping.Resolving
import Lox.Proofs.Wrapping.Units
import Lox.Resolve
import Lox.Resolver
import Lox.Scope
import Lox.Session
import Lox.Settings
import Lox.Store.Frames
import Lox.Text.Lines
import Lox.Text.Printable
import Lox.Text.Quoted
import Lox.Token.Basic
import Lox.Token.Piece
import Lox.Token.Scan
import Lox.Tree.Basic
import Lox.Tree.Nodes
import Lox.Tree.Outline
import Lox.Tree.Prefixed
import Lox.Value.Basic
import Lox.Value.Rendering
import Lox.Yaml.Cursor
import Lox.Yaml.Moment
import Lox.Yaml.Node
import Lox.Yaml.Reader
import Lox.Yaml.Scalar
import Lox.Yaml.Text
import Lox.Yaml.Token
import Lox.Yaml.Writer
