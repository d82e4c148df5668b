import SdlSchema.Text.Blank
import SdlSchema.NameIndex.Basic
import SdlSchema.NameIndex.Lemmas
import SdlSchema.Lexical.Pattern
import SdlSchema.Lexical.Munch
import SdlSchema.Token.Kind
import SdlSchema.Token.Basic
import SdlSchema.Token.Tokenize
import SdlSchema.Reading.Basic
import SdlSchema.Reading.Balanced
import SdlSchema.Reading.Markers
import SdlSchema.Reading.TypeReference
import SdlSchema.Reading.Items
import SdlSchema.Body.Element
import SdlSchema.Body.Field
import SdlSchema.Declaration.NameList
import SdlSchema.Declaration.Scan
import SdlSchema.Declaration.Braced
import SdlSchema.Declaration.Plain
import SdlSchema.Schema.Directive
import SdlSchema.Schema.Location
import SdlSchema.Schema.Definition
import SdlSchema.Schema.Basic
import SdlSchema.MarkerTable
import SdlSchema.Extraction.Bodies
import SdlSchema.Extraction.Extractor
import SdlSchema.Proofs.Text.Trimming
import SdlSchema.Proofs.Lexing.Relexing
import SdlSchema.Proofs.Lexing.Words
import SdlSchema.Proofs.Lexing.Spelling
import SdlSchema.Proofs.Lexing.Kinds
import SdlSchema.Proofs.Lexing.Joining
import SdlSchema.Proofs.Lexing.Comments
import SdlSchema.Proofs.Lexing.Lossless
import SdlSchema.Proofs.Lexing.MaximalMunch
import SdlSchema.Proofs.Reading.Steps
import SdlSchema.Proofs.Reading.Attempts
import SdlSchema.Proofs.Reading.Captured
import SdlSchema.Proofs.Reading.Types
import SdlSchema.Proofs.Reading.Elements
import SdlSchema.Proofs.Reading.Pairing
import SdlSchema.Proofs.Scanning.Matching
import SdlSchema.Proofs.Scanning.Braceless
import SdlSchema.Proofs.Scanning.Plain
import SdlSchema.Proofs.Scanning.Readers
import SdlSchema.Proofs.Scanning.Trace
import SdlSchema.Proofs.Scanning.Coverage
import SdlSchema.Proofs.Scanning.Passing
import SdlSchema.Proofs.Document.Grammar
import SdlSchema.Proofs.Document.Printing
import SdlSchema.Proofs.Document.Meaning
import SdlSchema.Proofs.Document.Spacing
import SdlSchema.Proofs.Document.Lines
import SdlSchema.Proofs.Document.Nesting
import SdlSchema.Proofs.Document.Bodies
import SdlSchema.Proofs.Document.Constructs
import SdlSchema.Proofs.Document.Declarations
import SdlSchema.Proofs.Document.RoundTrip
import SdlSchema.Proofs.Schema.Equality
import SdlSchema.Proofs.Schema.Views
import SdlSchema.Proofs.Schema.Collected
import SdlSchema.Proofs.Abridging.Steps
import SdlSchema.Proofs.Abridging.Declarations
import SdlSchema.Proofs.Abridging.Attempts
import SdlSchema.Proofs.Abridging.Bodies
import SdlSchema.Proofs.Reading.Lists
import SdlSchema.Proofs.Abridging.Scans
import SdlSchema.Proofs.Abridging.Hollow
import SdlSchema.Proofs.Abridging.Schemas
import SdlSchema.Proofs.Scanning.Joining
import SdlSchema.Proofs.Scanning.Items
import SdlSchema.Proofs.Forms.Pieces
import SdlSchema.Proofs.Forms.Elements
import SdlSchema.Proofs.Forms.Types
import SdlSchema.Proofs.Forms.Lists
import SdlSchema.Proofs.Forms.Headings
import SdlSchema.Proofs.Forms.Braced
import SdlSchema.Proofs.Forms.Fields
import SdlSchema.Proofs.Forms.Plain
import SdlSchema.Proofs.Forms.Declarations
import SdlSchema.Proofs.Extraction.MarkerTables
import SdlSchema.Proofs.Extraction.Outcomes
import SdlSchema.Proofs.Extraction.Publication
import SdlSchema.Proofs.Extraction.Presence
import SdlSchema.Proofs.Extraction.Extensions
import SdlSchema.Proofs.Extraction.Joining
import SdlSchema.Proofs.Extraction.Layout
import SdlSchema.Proofs.Extraction.Comments
import SdlSchema.Proofs.Cursor.Walk
import SdlSchema.Proofs.Cursor.Position
import SdlSchema.Proofs.Cursor.Steps
import SdlSchema.Proofs.Scanning.Starts
import SdlSchema.Proofs.Cursor.Attempt
import SdlSchema.Proofs.Cursor.Pieces
import SdlSchema.Proofs.Forms.FieldTypes
import SdlSchema.Proofs.Cursor.Brackets
import SdlSchema.Proofs.Cursor.Lists
import SdlSchema.Proofs.Cursor.Constructs
import SdlSchema.Proofs.Cursor.Scans
import SdlSchema.Proofs.Cursor.Ends
import SdlSchema.Proofs.Cursor.Progress
import SdlSchema.Proofs.Cursor.Advances
import SdlSchema.Proofs.Cursor.Scanners
import SdlSchema.Proofs.Cursor.Courses
import SdlSchema.Proofs.Cursor.Extraction
import SdlSchema.Proofs.Extraction.Relisting
import SdlSchema.Proofs.Reading.ItemEnds
import SdlSchema.Proofs.Scanning.Recovery
import SdlSchema.Proofs.Extraction.MarkerRuns
import SdlSchema.Proofs.Scanning.Closers
import SdlSchema.Proofs.Cursor.Closers
