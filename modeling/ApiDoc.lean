import ApiDoc.Text.Byte
import ApiDoc.Text.Utf8
import ApiDoc.Text.Printable
import ApiDoc.Text.Span
import ApiDoc.Text.Source
import ApiDoc.Text.Cursor
import ApiDoc.Text.Line
import ApiDoc.Text.Comment
import ApiDoc.Interchange.Catalog
import ApiDoc.Interchange
import ApiDoc.Directive.Kind
import ApiDoc.Directive.Notation
import ApiDoc.Directive.Keyword
import ApiDoc.Directive.Recogniser
import ApiDoc.Directive.Parameter
import ApiDoc.Diagnostic.Code
import ApiDoc.Diagnostic.Complaint
import ApiDoc.Diagnostic
import ApiDoc.Schema.Extent
import ApiDoc.Lexeme
import ApiDoc.Scan.State
import ApiDoc.Scan.LineEnd
import ApiDoc.Scan.Items
import ApiDoc.Scan.Body
import ApiDoc.Scan.Tail
import ApiDoc.Scan.Transcript
import ApiDoc.Scan.Reader
import ApiDoc.Document
import ApiDoc.Document.Assembly
import ApiDoc.Document.Parse
import ApiDoc.Document.Loader
import ApiDoc.Document.Shelf
import ApiDoc.Proofs.Text.Cursor
import ApiDoc.Proofs.Text.Utf8
import ApiDoc.Proofs.Text.Respelling
import ApiDoc.Proofs.Text.LineEnds
import ApiDoc.Proofs.Text.LinePartition
import ApiDoc.Proofs.Text.UniformLines
import ApiDoc.Proofs.Text.QuoteLength
import ApiDoc.Proofs.Text.Characters
import ApiDoc.Proofs.Text.QuoteExact
import ApiDoc.Proofs.Directive.Spelling
import ApiDoc.Proofs.Directive.Agreement
import ApiDoc.Proofs.Scan.Rules
import ApiDoc.Proofs.Scan.Run
import ApiDoc.Proofs.Scan.Quoting
import ApiDoc.Proofs.Scan.DirectiveLine
import ApiDoc.Proofs.Scan.SchemaPlacement
import ApiDoc.Proofs.Scan.Reading
import ApiDoc.Proofs.Scan.TextLines
import ApiDoc.Proofs.Scan.Tiling
import ApiDoc.Proofs.Scan.Coverage
import ApiDoc.Proofs.Scan.LineRoundTrip
import ApiDoc.Proofs.Scan.Shape
import ApiDoc.Proofs.Scan.Failure
import ApiDoc.Proofs.Scan.Ledger
import ApiDoc.Proofs.Scan.Attachment
import ApiDoc.Proofs.Scan.TextBody
import ApiDoc.Proofs.Scan.ParenText
import ApiDoc.Proofs.Scan.Nesting
import ApiDoc.Proofs.Scan.Calls
import ApiDoc.Proofs.Scan.Pointing
import ApiDoc.Proofs.Schema.Locality
import ApiDoc.Proofs.Schema.Stops
import ApiDoc.Proofs.Schema.Words
import ApiDoc.Proofs.Schema.Descent
import ApiDoc.Proofs.Schema.Respelt
import ApiDoc.Proofs.Schema.Escapes
import ApiDoc.Proofs.Schema.Extents
import ApiDoc.Proofs.Scan.SchemaLines
import ApiDoc.Proofs.Scan.Extension
import ApiDoc.Proofs.Scan.Composition
import ApiDoc.Proofs.Scan.Interjection
import ApiDoc.Proofs.Scan.Places
import ApiDoc.Proofs.Scan.Respelt
import ApiDoc.Proofs.Machine.Checked
import ApiDoc.Proofs.Text.SpanJoin
import ApiDoc.Proofs.Machine.Head
import ApiDoc.Proofs.Machine.Program
import ApiDoc.Proofs.Machine.Loops
import ApiDoc.Proofs.Machine.Answers
import ApiDoc.Proofs.Machine.Steps
import ApiDoc.Proofs.Machine.Turns
import ApiDoc.Proofs.Machine.Stack
import ApiDoc.Proofs.Machine.Bounds
import ApiDoc.Proofs.Machine.Probe
import ApiDoc.Proofs.Machine.ProbeParts
import ApiDoc.Proofs.Machine.ProbeTotal
import ApiDoc.Proofs.Machine.ProbeLaws
import ApiDoc.Proofs.Document.Forest
import ApiDoc.Proofs.Document.Placement
import ApiDoc.Proofs.Document.RoundTrip
import ApiDoc.Proofs.Document.Lineage
import ApiDoc.Proofs.Document.Acceptance
import ApiDoc.Proofs.Document.Alignment
import ApiDoc.Proofs.Document.Parentage
import ApiDoc.Proofs.Document.Enclosure
import ApiDoc.Proofs.Document.Kinds
import ApiDoc.Proofs.Document.Inclusion
import ApiDoc.Proofs.Document.Bounds
import ApiDoc.Proofs.Document.Conformance
import ApiDoc.Proofs.Document.Relocation
import ApiDoc.Proofs.Document.LineEnds
import ApiDoc.Proofs.Document.Comments
import ApiDoc.Proofs.Document.Fitting
import ApiDoc.Proofs.Document.Measure
