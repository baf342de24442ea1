import AlterCatalog.Change
import AlterCatalog.Change.Dictionary
import AlterCatalog.Change.Json
import AlterCatalog.CommandLine.Arguments
import AlterCatalog.CommandLine.Run
import AlterCatalog.Json
import AlterCatalog.Json.Numeral
import AlterCatalog.Json.Printer
import AlterCatalog.Json.Reader
import AlterCatalog.Json.Record
import AlterCatalog.Json.Token
import AlterCatalog.Layout
import AlterCatalog.Layout.Json
import AlterCatalog.Layout.Sink
import AlterCatalog.Layout.Writer
import AlterCatalog.Location
import AlterCatalog.Log
import AlterCatalog.Main
import AlterCatalog.Proofs.Admission
import AlterCatalog.Proofs.Agreement
import AlterCatalog.Proofs.Bare
import AlterCatalog.Proofs.BareJson
import AlterCatalog.Proofs.Blocks
import AlterCatalog.Proofs.Calls
import AlterCatalog.Proofs.Canonical
import AlterCatalog.Proofs.ChangeJson
import AlterCatalog.Proofs.Dictionary
import AlterCatalog.Proofs.Display
import AlterCatalog.Proofs.Embedding
import AlterCatalog.Proofs.Erasure
import AlterCatalog.Proofs.ExplanationJson
import AlterCatalog.Proofs.ExplanationText
import AlterCatalog.Proofs.Filler
import AlterCatalog.Proofs.Findings
import AlterCatalog.Proofs.Formatting
import AlterCatalog.Proofs.Frames
import AlterCatalog.Proofs.Identifiers
import AlterCatalog.Proofs.Ink
import AlterCatalog.Proofs.JsonText
import AlterCatalog.Proofs.LayoutJson
import AlterCatalog.Proofs.Legible
import AlterCatalog.Proofs.LetterCase
import AlterCatalog.Proofs.LexFaults
import AlterCatalog.Proofs.Lexeme
import AlterCatalog.Proofs.Lines
import AlterCatalog.Proofs.Locality
import AlterCatalog.Proofs.Logging
import AlterCatalog.Proofs.Lossless
import AlterCatalog.Proofs.Merging
import AlterCatalog.Proofs.Nesting
import AlterCatalog.Proofs.Numbers
import AlterCatalog.Proofs.Outcomes
import AlterCatalog.Proofs.Pieces
import AlterCatalog.Proofs.Places
import AlterCatalog.Proofs.Quotation
import AlterCatalog.Proofs.Quoted
import AlterCatalog.Proofs.Reading
import AlterCatalog.Proofs.Refusal
import AlterCatalog.Proofs.Room
import AlterCatalog.Proofs.RoundTrip
import AlterCatalog.Proofs.Script
import AlterCatalog.Proofs.Segments
import AlterCatalog.Proofs.Sentences
import AlterCatalog.Proofs.Slices
import AlterCatalog.Proofs.Spans
import AlterCatalog.Proofs.Spelling
import AlterCatalog.Proofs.StatementJson
import AlterCatalog.Proofs.Traversal
import AlterCatalog.Proofs.Viable
import AlterCatalog.Proofs.Writing
import AlterCatalog.Report
import AlterCatalog.Statement
import AlterCatalog.Statement.Grammar
import AlterCatalog.Statement.Json
import AlterCatalog.Statement.Node
import AlterCatalog.Statement.Parser
import AlterCatalog.Statement.Printer
import AlterCatalog.Text
import AlterCatalog.Text.Inspect
import AlterCatalog.Token
import AlterCatalog.Token.Inspect
import AlterCatalog.Token.Lexer
import AlterCatalog.Validation
