import Linewise.Batch
import Linewise.Construct
import Linewise.Cursor
import Linewise.Decimal.Binary64
import Linewise.Decimal.Shortest
import Linewise.Diagnostic
import Linewise.Discovery
import Linewise.Expr
import Linewise.FileTree
import Linewise.Lexeme
import Linewise.Lexeme.Comment
import Linewise.Lexeme.Numeral
import Linewise.Lexeme.Quoted
import Linewise.Lexeme.Symbol
import Linewise.Lexer
import Linewise.Lexer.Basic
import Linewise.Lexer.Scan
import Linewise.Parser
import Linewise.Parser.Basic
import Linewise.Parser.Expression
import Linewise.Parser.FunctionHeader
import Linewise.Path
import Linewise.Render
import Linewise.Render.Row
import Linewise.Render.Theme
import Linewise.Render.Window
import Linewise.Report
import Linewise.Settings.Basic
import Linewise.Settings.File
import Linewise.Settings.Schema
import Linewise.Settings.Toml
import Linewise.Span
import Linewise.Span.Bytes
import Linewise.SyntaxError
import Linewise.Text.Alphabetic
import Linewise.Text.Bytes
import Linewise.Text.Character
import Linewise.Text.Columns
import Linewise.Text.Escape
import Linewise.Text.Hidden
import Linewise.Text.Line
import Linewise.Text.Numeric
import Linewise.Text.Quoted
import Linewise.Text.Ranges
import Linewise.Text.Wide
import Linewise.Text.ZeroWidth
import Linewise.Token
import Linewise.Token.Kind
import Linewise.Token.Precedence
import Linewise.Toml.Decoder
import Linewise.Toml.Document
import Linewise.Toml.Number
import Linewise.Toml.Table
import Linewise.Toml.Text
import Linewise.Toml.Value
import Linewise.Proofs.Grammar
import Linewise.Proofs.Parser.Moves
import Linewise.Proofs.Parser.Soundness
import Linewise.Proofs.Parser.ProgramSoundness
import Linewise.Proofs.Need
import Linewise.Proofs.Parser.Completeness
import Linewise.Proofs.Parser.ProgramCompleteness
import Linewise.Proofs.Slots
import Linewise.Proofs.Pieces
import Linewise.Proofs.Lossless
import Linewise.Proofs.Canonical
import Linewise.Proofs.Precedence
import Linewise.Proofs.Lexeme
import Linewise.Proofs.Spelled
import Linewise.Proofs.Reading
import Linewise.Proofs.ProgramReading
import Linewise.Proofs.Erase
import Linewise.Proofs.Refit
import Linewise.Proofs.Lines
import Linewise.Proofs.Printing
import Linewise.Proofs.RoundTrip
import Linewise.Proofs.Places
import Linewise.Proofs.LineBreaks
import Linewise.Proofs.BlankedLexing
import Linewise.Proofs.Parser.Congruence
import Linewise.Proofs.Rereading
import Linewise.Proofs.Bookmark
import Linewise.Proofs.Parser.ProgramCongruence
import Linewise.Proofs.FurtherLines
import Linewise.Proofs.Parser.Appending
import Linewise.Proofs.Concatenation
import Linewise.Proofs.Spelling
import Linewise.Proofs.TokenText
import Linewise.Proofs.Stepwise
import Linewise.Proofs.Stepwise.Lexemes
import Linewise.Proofs.Stepwise.Tokens
import Linewise.Proofs.Parser.Compositional
import Linewise.Proofs.Parser.Limit
import Linewise.Proofs.Nesting
import Linewise.Proofs.Height
import Linewise.Proofs.Parser.Balanced
import Linewise.Proofs.Parser.Checked
import Linewise.Proofs.Safety
import Linewise.Proofs.Coverage
import Linewise.Proofs.Recognition
import Linewise.Proofs.Encoding
import Linewise.Proofs.Rejection
import Linewise.Proofs.Parser.RejectionSoundness
import Linewise.Proofs.Parser.ProgramRejectionSoundness
import Linewise.Proofs.Parser.RejectionCompleteness
import Linewise.Proofs.Parser.ProgramRejectionCompleteness
import Linewise.Proofs.ErrorPlaces
import Linewise.Proofs.Unterminated
import Linewise.Proofs.LaterLines
import Linewise.Proofs.RelocatedReading
import Linewise.Proofs.Delimiters
import Linewise.Proofs.Layout
import Linewise.Proofs.Endings
import Linewise.Proofs.TokenOrder
import Linewise.Proofs.AssignmentTargets
import Linewise.Proofs.Mending
import Linewise.Proofs.ProgramMending
import Linewise.Proofs.FirstError
import Linewise.Proofs.Interleaving
import Linewise.Proofs.SideBySide
import Linewise.Proofs.WellFormed
import Linewise.Proofs.Extent
import Linewise.Proofs.SameInput
import Linewise.Proofs.Progress
import Linewise.Proofs.Parser.Persistent
import Linewise.Proofs.Parser.Similar
import Linewise.Proofs.Parser.FreshStart
import Linewise.Proofs.Excerpt
import Linewise.Proofs.ExcerptLexing
import Linewise.Proofs.Locality
import Linewise.Proofs.CommentSkipping
import Linewise.Proofs.StatementLines
import Linewise.Proofs.Successive
import Linewise.Proofs.HiddenLineEnds
import Linewise.Proofs.HeaderLanguage
import Linewise.Proofs.HeaderReading
import Linewise.Proofs.HeaderRecognition
import Linewise.Proofs.Display
import Linewise.Proofs.TokenStart
import Linewise.Proofs.CommentEnd
import Linewise.Proofs.QuotedParts
import Linewise.Proofs.LongestNumeral
import Linewise.Proofs.Highlight
import Linewise.Proofs.ByteRanges
import Linewise.Proofs.NodeSpans
import Linewise.Proofs.RenderedLine
import Linewise.Proofs.PathOrder
import Linewise.Proofs.DirectoryOrder
import Linewise.Proofs.EntryLookup
import Linewise.Proofs.SourceFiles
import Linewise.Proofs.BatchOutcome
import Linewise.Proofs.TomlDocuments
import Linewise.Proofs.DecoderLaws
import Linewise.Proofs.SettingsDecided
import Linewise.Proofs.UnreadText
import Linewise.Proofs.Rounds
import Linewise.Proofs.NodeTokens
import Linewise.Proofs.Termination
import Linewise.Proofs.Unreading
