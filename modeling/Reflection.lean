import Reflection.Arguments
import Reflection.Artifact.Cpp
import Reflection.Artifact.Format
import Reflection.CommandLine
import Reflection.Declaration
import Reflection.Declaration.Json
import Reflection.Descriptor
import Reflection.Descriptor.Json
import Reflection.Digest
import Reflection.Freshness
import Reflection.Generation
import Reflection.Header.Annotations
import Reflection.Header.Classes
import Reflection.Header.Expansion
import Reflection.Header.Lookahead
import Reflection.Header.Members
import Reflection.Header.Reading
import Reflection.Header.Recorded
import Reflection.Header.Scopes
import Reflection.Header.Skipping
import Reflection.Header.Token
import Reflection.Header.Types
import Reflection.Invocation
import Reflection.Json.Basic
import Reflection.Json.Magnitude
import Reflection.Json.Parser
import Reflection.Json.Printer
import Reflection.Json.Quoted
import Reflection.Json.Reader
import Reflection.Json.Record
import Reflection.Main
import Reflection.Metadata.Attribute
import Reflection.Metadata.DocTags
import Reflection.Metadata.Literal
import Reflection.Metadata.Piece
import Reflection.Metadata.Token
import Reflection.Notice
import Reflection.Path
import Reflection.Program
import Reflection.Proofs.Artifact.Injective
import Reflection.Proofs.Coverage
import Reflection.Proofs.Declaration.Records
import Reflection.Proofs.Declaration.Reload
import Reflection.Proofs.Descriptor.Records
import Reflection.Proofs.Descriptor.Reload
import Reflection.Proofs.Generation.Comments
import Reflection.Proofs.Generation.Registration
import Reflection.Proofs.Generation.Replacements
import Reflection.Proofs.Generation.Runs
import Reflection.Proofs.Generation.Sessions
import Reflection.Proofs.Header.Alongside
import Reflection.Proofs.Header.Alongside.Annotations
import Reflection.Proofs.Header.Alongside.Classes
import Reflection.Proofs.Header.Alongside.Courses
import Reflection.Proofs.Header.Alongside.Members
import Reflection.Proofs.Header.Alongside.Recorded
import Reflection.Proofs.Header.Alongside.Scopes
import Reflection.Proofs.Header.Alongside.Skipping
import Reflection.Proofs.Header.Alongside.Types
import Reflection.Proofs.Header.Alongside.Whole
import Reflection.Proofs.Header.AttributeText
import Reflection.Proofs.Header.BlockComments
import Reflection.Proofs.Header.BraceDepth
import Reflection.Proofs.Header.Comments
import Reflection.Proofs.Header.Courses
import Reflection.Proofs.Header.Edits
import Reflection.Proofs.Header.EnumDeclarations
import Reflection.Proofs.Header.Enumerators
import Reflection.Proofs.Header.ErrorModes
import Reflection.Proofs.Header.EveryClass
import Reflection.Proofs.Header.Expansion
import Reflection.Proofs.Header.FunctionText
import Reflection.Proofs.Header.Functions
import Reflection.Proofs.Header.Groups
import Reflection.Proofs.Header.Loops
import Reflection.Proofs.Header.Members.Access
import Reflection.Proofs.Header.Members.Attributes
import Reflection.Proofs.Header.Members.Declares
import Reflection.Proofs.Header.Members.Elaborated
import Reflection.Proofs.Header.Members.Headers
import Reflection.Proofs.Header.Members.InitialValues
import Reflection.Proofs.Header.Members.Labels
import Reflection.Proofs.Header.Members.Parts
import Reflection.Proofs.Header.Members.PointerMembers
import Reflection.Proofs.Header.Members.TypeDeclarators
import Reflection.Proofs.Header.Nested
import Reflection.Proofs.Header.Orderly
import Reflection.Proofs.Header.Passing
import Reflection.Proofs.Header.Places
import Reflection.Proofs.Header.Progress
import Reflection.Proofs.Header.Readers
import Reflection.Proofs.Header.Recovery
import Reflection.Proofs.Header.Reports
import Reflection.Proofs.Header.Spans
import Reflection.Proofs.Header.Spans.Nested
import Reflection.Proofs.Header.Spans.Parts
import Reflection.Proofs.Header.Steps
import Reflection.Proofs.Header.StringLiterals
import Reflection.Proofs.Header.TypeHeads
import Reflection.Proofs.Header.Unplaced
import Reflection.Proofs.Interleavings
import Reflection.Proofs.Json.Depth
import Reflection.Proofs.Json.Numbers
import Reflection.Proofs.Json.Printed
import Reflection.Proofs.Json.Records
import Reflection.Proofs.Json.Strings
import Reflection.Proofs.Literals
import Reflection.Proofs.Metadata.Brackets
import Reflection.Proofs.Metadata.Escapes
import Reflection.Proofs.Metadata.Grammar
import Reflection.Proofs.Metadata.JoinedText
import Reflection.Proofs.Metadata.Lexemes
import Reflection.Proofs.Metadata.Literal
import Reflection.Proofs.Metadata.QuotedItems
import Reflection.Proofs.Metadata.SteadyReaders
import Reflection.Proofs.Outcomes
import Reflection.Proofs.Placement
import Reflection.Proofs.Positions
import Reflection.Proofs.QuotedMetadata
import Reflection.Proofs.Registry.Histories
import Reflection.Proofs.Selection.AttributeBlocks
import Reflection.Proofs.Selection.Bodies
import Reflection.Proofs.Selection.DocComments
import Reflection.Proofs.Selection.Findings
import Reflection.Proofs.Selection.MalformedPolicy
import Reflection.Proofs.Selection.Members
import Reflection.Proofs.Selection.Occurrences
import Reflection.Proofs.Selection.Reference
import Reflection.Proofs.Selection.Unplaced
import Reflection.Proofs.Settings.Directives
import Reflection.Proofs.Settings.Entries
import Reflection.Proofs.Settings.Merging
import Reflection.Proofs.Settings.Quoting
import Reflection.Proofs.Settings.Rendering
import Reflection.Proofs.Settings.Standards
import Reflection.Proofs.Text
import Reflection.RecordedHash
import Reflection.Registry
import Reflection.Selection
import Reflection.Settings
import Reflection.Settings.Command
import Reflection.Settings.Database
import Reflection.Source
import Reflection.Span
import Reflection.Store
import Reflection.Text
import Reflection.Token
