import ControlLanguage.Canonical.Recognition
import ControlLanguage.Canonical.Value
import ControlLanguage.Command.Basic
import ControlLanguage.Command.Parser
import ControlLanguage.Command.Printer
import ControlLanguage.CommandLine.Arguments
import ControlLanguage.CommandLine.Path
import ControlLanguage.CommandLine.Run
import ControlLanguage.Document.Basic
import ControlLanguage.Document.File
import ControlLanguage.Document.Floating
import ControlLanguage.Document.IntegerText
import ControlLanguage.Document.Problem
import ControlLanguage.Document.Reader
import ControlLanguage.Format.Atom
import ControlLanguage.Format.Break
import ControlLanguage.Format.Page
import ControlLanguage.Format.Segment
import ControlLanguage.Format.Source
import ControlLanguage.Format.Statement
import ControlLanguage.Layout.Basic
import ControlLanguage.Layout.Load
import ControlLanguage.Layout.Reader
import ControlLanguage.Main
import ControlLanguage.Metadata.Basic
import ControlLanguage.Metadata.Load
import ControlLanguage.Metadata.Reader
import ControlLanguage.Parameter.Assembly
import ControlLanguage.Parameter.Default
import ControlLanguage.Parameter.ElementKey
import ControlLanguage.Parameter.Interpretation
import ControlLanguage.Parameter.Rebuild
import ControlLanguage.Parameter.Rendering
import ControlLanguage.Parameter.Value
import ControlLanguage.Part.Nesting
import ControlLanguage.Part.Split
import ControlLanguage.Statement.Continuation
import ControlLanguage.Statement.Label
import ControlLanguage.Text.Basic
import ControlLanguage.Text.CaseTable
import ControlLanguage.Text.CodeRange
import ControlLanguage.Text.Digit
import ControlLanguage.Text.Identifier
import ControlLanguage.Text.LetterCase
import ControlLanguage.Text.Line
import ControlLanguage.Text.Pattern
import ControlLanguage.Text.WhiteSpace
import ControlLanguage.Token.Basic
import ControlLanguage.Token.Lexer
import ControlLanguage.Yaml.Cursor
import ControlLanguage.Yaml.Document
import ControlLanguage.Yaml.Lexer
import ControlLanguage.Yaml.Plain
import ControlLanguage.Yaml.Scalar
import ControlLanguage.Yaml.Token
import ControlLanguage.Proofs.Text.Trim
import ControlLanguage.Proofs.Text.Ink
import ControlLanguage.Proofs.Token.Lexing
import ControlLanguage.Proofs.Token.Thinning
import ControlLanguage.Proofs.Command.Capture
import ControlLanguage.Proofs.Statement.Joining
import ControlLanguage.Proofs.Token.Spacing
import ControlLanguage.Proofs.Format.Search
import ControlLanguage.Proofs.Format.Break
import ControlLanguage.Proofs.Format.Filling
import ControlLanguage.Proofs.Text.AsciiCase
import ControlLanguage.Proofs.Format.Atom
import ControlLanguage.Proofs.Format.Piece
import ControlLanguage.Proofs.Statement.Label
import ControlLanguage.Proofs.Command.Reading
import ControlLanguage.Proofs.Format.Alike
import ControlLanguage.Proofs.Format.Parameters
import ControlLanguage.Proofs.Format.Head
import ControlLanguage.Proofs.Format.Ink
import ControlLanguage.Proofs.Format.ReadBack
import ControlLanguage.Proofs.Format.Mending
import ControlLanguage.Proofs.Format.Stability
import ControlLanguage.Proofs.Format.Breaking
import ControlLanguage.Proofs.Text.LetterCase
import ControlLanguage.Proofs.Format.Wholeness
import ControlLanguage.Proofs.Text.LowerCase
import ControlLanguage.Proofs.Format.Heading
import ControlLanguage.Proofs.Format.Margin
import ControlLanguage.Proofs.Format.Columns
import ControlLanguage.Proofs.Part.Tidy
import ControlLanguage.Proofs.Part.Splitting
import ControlLanguage.Proofs.Part.Unwrapping
import ControlLanguage.Proofs.Canonical.Settled
import ControlLanguage.Proofs.Parameter.Settling
import ControlLanguage.Proofs.Part.Lexing
import ControlLanguage.Proofs.Parameter.Keys
import ControlLanguage.Proofs.Text.Identifier
import ControlLanguage.Proofs.Command.Span
import ControlLanguage.Proofs.Command.Literal
import ControlLanguage.Proofs.Statement.Assembled
import ControlLanguage.Proofs.Command.Printing
import ControlLanguage.Proofs.Command.Reprinting
import ControlLanguage.Proofs.Statement.Rebuilding
import ControlLanguage.Proofs.Token.Tiling
import ControlLanguage.Proofs.Part.Grouping
import ControlLanguage.Proofs.Part.Qualified
import ControlLanguage.Proofs.Statement.Qualified
import ControlLanguage.Proofs.Command.Grammar
import ControlLanguage.Proofs.Statement.Arguments
import ControlLanguage.Proofs.Parameter.Order
import ControlLanguage.Proofs.Statement.Order
import ControlLanguage.Proofs.Text.Capital
import ControlLanguage.Proofs.Canonical.LetterCase
import ControlLanguage.Proofs.Statement.Enclosure
import ControlLanguage.Proofs.Part.LetterCase
import ControlLanguage.Proofs.Parameter.Texts
import ControlLanguage.Proofs.Parameter.LetterCase
import ControlLanguage.Proofs.Parameter.Comparison
import ControlLanguage.Proofs.Statement.Suppression
import ControlLanguage.Proofs.Part.Fields
import ControlLanguage.Proofs.Part.NormalForm
import ControlLanguage.Proofs.Part.Nested
import ControlLanguage.Proofs.Part.Padding
import ControlLanguage.Proofs.Statement.Occurrences
import ControlLanguage.Proofs.Parameter.Elements
import ControlLanguage.Proofs.Statement.SurfaceText
import ControlLanguage.Proofs.Token.LetterCase
import ControlLanguage.Proofs.Statement.Literals
import ControlLanguage.Proofs.Part.Matching
import ControlLanguage.Proofs.Statement.LineGroup
import ControlLanguage.Proofs.Format.Termination
import ControlLanguage.Proofs.Parameter.Places
import ControlLanguage.Proofs.Statement.Flattening
import ControlLanguage.Proofs.Token.Strictness
import ControlLanguage.Proofs.Format.Enumeration
import ControlLanguage.Proofs.Format.Context
import ControlLanguage.Proofs.Format.Greedy
import ControlLanguage.Proofs.Format.Growth
import ControlLanguage.Proofs.Format.Call
import ControlLanguage.Proofs.Parameter.Shapes
import ControlLanguage.Proofs.Parameter.Undivided
import ControlLanguage.Proofs.Parameter.PlainPart
import ControlLanguage.Proofs.Parameter.SurfaceText
import ControlLanguage.Proofs.Parameter.ReadBack
import ControlLanguage.Proofs.Statement.Single
