import Offside.Text.CharClass
import Offside.Text.Search
import Offside.Text.TopLevel
import Offside.Comment
import Offside.Source
import Offside.Fault
import Offside.Indentation
import Offside.Statement
import Offside.Forest
import Offside.Outline
import Offside.Selector
import Offside.Text.Squeeze
import Offside.Scope
import Offside.Output
import Offside.Compile
import Offside.Number.Shortest
import Offside.Number.Text
import Offside.Journal
import Offside.Config.Value
import Offside.Config.Settings
import Offside.Config.Scalar
import Offside.Config.Cursor
import Offside.Config.Word
import Offside.Config.Token
import Offside.Config.Node
import Offside.Config.Document
import Offside.Text.Printable
import Offside.Text.Quoted
import Offside.Text.Utf8
import Offside.File.Path
import Offside.File.Tree
import Offside.File.Replace
import Offside.File.Edit
import Offside.Build.Report
import Offside.Build.World
import Offside.Build.Run
import Offside.Build.Watch
import Offside.Config.Load
import Offside.Console.Markup
import Offside.Console.Item
import Offside.Console.Excerpt
import Offside.Console.Card
import Offside.Text.Digit
import Offside.Number.Whole
import Offside.Command.Arguments
import Offside.Command.Request
import Offside.Command.Run
import Offside.File.Change
import Offside.Console.Plain
import Offside.Main
import Offside.Proofs.Writing
import Offside.Proofs.Scoping
import Offside.Proofs.Agreement
import Offside.Proofs.Offsets
import Offside.Proofs.Alike
import Offside.Proofs.Layout
import Offside.Proofs.Selecting
import Offside.Proofs.Compaction
import Offside.Proofs.Refusal
import Offside.Proofs.Pointing
import Offside.Proofs.Relocation
import Offside.Proofs.Uniform
import Offside.Proofs.Places
import Offside.Proofs.Replacing
import Offside.Proofs.Watching
import Offside.Proofs.Tracking
import Offside.Proofs.Surviving
import Offside.Proofs.Checking
import Offside.Proofs.Emitting
import Offside.Proofs.Grouping
import Offside.Proofs.Statements
import Offside.Proofs.Breaks
import Offside.Proofs.Strings
import Offside.Proofs.Verbatim
import Offside.Proofs.Openers
import Offside.Proofs.Seams
import Offside.Proofs.Uncommented
import Offside.Proofs.Provenance
import Offside.Proofs.RootBlock
import Offside.Proofs.Rendering
import Offside.Proofs.Inert
import Offside.Proofs.Coverage
import Offside.Proofs.Extending
import Offside.Proofs.Intervals
import Offside.Proofs.Canonical
import Offside.Proofs.Splitting
import Offside.Proofs.Normalising
import Offside.Proofs.Gaps
import Offside.Proofs.Literals
import Offside.Proofs.Locating
import Offside.Proofs.Resolving
import Offside.Proofs.Squeezing
import Offside.Proofs.Reporting
import Offside.Proofs.Excerpting
import Offside.Proofs.Doubles
import Offside.Proofs.Accepting
import Offside.Proofs.Loading
import Offside.Proofs.Ownership
import Offside.Proofs.Coordinates
