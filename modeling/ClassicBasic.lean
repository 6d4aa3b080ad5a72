import ClassicBasic.Classic.Dignify
import ClassicBasic.Classic.Line
import ClassicBasic.Classic.Piece
import ClassicBasic.Command.Convert
import ClassicBasic.Command.Desk
import ClassicBasic.Command.Execute
import ClassicBasic.Command.Name
import ClassicBasic.Command.Reverse
import ClassicBasic.Diagnostic
import ClassicBasic.Dialect.Basic
import ClassicBasic.Dialect.Charset
import ClassicBasic.Dialect.Grammar
import ClassicBasic.Dialect.Vocabulary
import ClassicBasic.Files
import ClassicBasic.Handoff.Effect
import ClassicBasic.Handoff.Filter
import ClassicBasic.Handoff.Format
import ClassicBasic.Handoff.Job
import ClassicBasic.Handoff.Script
import ClassicBasic.Handoff.Shell
import ClassicBasic.Handoff.Tool
import ClassicBasic.Label
import ClassicBasic.Lexer.Basic
import ClassicBasic.Lexer.Data
import ClassicBasic.Lexer.Glyph
import ClassicBasic.Lexer.Munch
import ClassicBasic.Library
import ClassicBasic.Listing
import ClassicBasic.Log
import ClassicBasic.Main
import ClassicBasic.Naming
import ClassicBasic.Outcome
import ClassicBasic.Program.Bracket
import ClassicBasic.Program.Compile
import ClassicBasic.Program.Declare
import ClassicBasic.Program.Define
import ClassicBasic.Program.Directive
import ClassicBasic.Program.Include
import ClassicBasic.Program.Label
import ClassicBasic.Program.Merge
import ClassicBasic.Program.Numbering
import ClassicBasic.Program.Options
import ClassicBasic.Program.PrintAt
import ClassicBasic.Program.Render
import ClassicBasic.Program.Report
import ClassicBasic.Program.Routine
import ClassicBasic.Program.Session
import ClassicBasic.Program.Touch
import ClassicBasic.Proofs.Allocation
import ClassicBasic.Proofs.Anchor
import ClassicBasic.Proofs.Blocks
import ClassicBasic.Proofs.Branches
import ClassicBasic.Proofs.Case
import ClassicBasic.Proofs.Compile
import ClassicBasic.Proofs.Conversion
import ClassicBasic.Proofs.Directive
import ClassicBasic.Proofs.Entry
import ClassicBasic.Proofs.Expansion
import ClassicBasic.Proofs.Finish
import ClassicBasic.Proofs.Include
import ClassicBasic.Proofs.Keywords
import ClassicBasic.Proofs.Label
import ClassicBasic.Proofs.LabelReport
import ClassicBasic.Proofs.Spelled
import ClassicBasic.Proofs.Lexical
import ClassicBasic.Proofs.LineNumbers
import ClassicBasic.Proofs.Loose
import ClassicBasic.Proofs.Merge
import ClassicBasic.Proofs.Numbering
import ClassicBasic.Proofs.Reading
import ClassicBasic.Proofs.Renaming
import ClassicBasic.Proofs.Rendering
import ClassicBasic.Proofs.Rows
import ClassicBasic.Proofs.Sealed
import ClassicBasic.Proofs.ShortNames
import ClassicBasic.Proofs.Stages
import ClassicBasic.Proofs.Stripping
import ClassicBasic.Proofs.Targets
import ClassicBasic.Proofs.Unswallowed
import ClassicBasic.Proofs.Visit
import ClassicBasic.Proofs.Words
import ClassicBasic.Settings.Basic
import ClassicBasic.Settings.Check
import ClassicBasic.Settings.Environment
import ClassicBasic.Settings.File
import ClassicBasic.Settings.Flag
import ClassicBasic.Settings.Load
import ClassicBasic.Settings.Tag
import ClassicBasic.Text.Basic
import ClassicBasic.Text.Blank
import ClassicBasic.Text.Case
import ClassicBasic.Text.CaseTable
import ClassicBasic.Text.Digit
import ClassicBasic.Text.Encoding
import ClassicBasic.Text.Numeral
import ClassicBasic.Text.PathName
import ClassicBasic.Text.Printable
import ClassicBasic.Text.Quoted
import ClassicBasic.Token.Basic
import ClassicBasic.Token.Kind
import ClassicBasic.Token.Position
import ClassicBasic.Yaml.Bytes
import ClassicBasic.Yaml.Instant
import ClassicBasic.Yaml.Node
import ClassicBasic.Yaml.Numeral
import ClassicBasic.Yaml.Read
import ClassicBasic.Yaml.Scalar
import ClassicBasic.Yaml.Scan
import ClassicBasic.Yaml.Token
import ClassicBasic.Yaml.Write
import ClassicBasic.Proofs.Coverage
import ClassicBasic.Proofs.Rescaling
import ClassicBasic.Proofs.Captured
import ClassicBasic.Proofs.Carried
import ClassicBasic.Proofs.Tidying
import ClassicBasic.Proofs.Fenced
import ClassicBasic.Proofs.Total
import ClassicBasic.Proofs.Cancellation
import ClassicBasic.Proofs.Homed
import ClassicBasic.Proofs.Framed
import ClassicBasic.Proofs.Sentinels
import ClassicBasic.Proofs.Storable
import ClassicBasic.Proofs.Joining
import ClassicBasic.Proofs.Precedence
import ClassicBasic.Proofs.DataItems
import ClassicBasic.Proofs.Invocation
import ClassicBasic.Proofs.Lookahead
import ClassicBasic.Proofs.Toggled
import ClassicBasic.Proofs.Arithmetic
import ClassicBasic.Proofs.Assignment
import ClassicBasic.Proofs.Spaced
import ClassicBasic.Proofs.Capitals
import ClassicBasic.Proofs.Signposts
import ClassicBasic.Proofs.Abreast
import ClassicBasic.Proofs.ReadAlike
import ClassicBasic.Proofs.Alongside
import ClassicBasic.Proofs.NumberedAlike
import ClassicBasic.Proofs.WrittenAlike
import ClassicBasic.Proofs.LetterCase
import ClassicBasic.Proofs.LineEnds
import ClassicBasic.Proofs.Fronts
import ClassicBasic.Proofs.Interposed
import ClassicBasic.Proofs.Numerals
import ClassicBasic.Proofs.Places
import ClassicBasic.Proofs.Saving
import ClassicBasic.Proofs.Filled
import ClassicBasic.Proofs.Shown
import ClassicBasic.Proofs.Written
import ClassicBasic.Proofs.Grouped
import ClassicBasic.Proofs.Parts
import ClassicBasic.Proofs.Longest
import ClassicBasic.Proofs.Snippets
import ClassicBasic.Proofs.Steering
import ClassicBasic.Proofs.Relaid
import ClassicBasic.Proofs.Layouts
