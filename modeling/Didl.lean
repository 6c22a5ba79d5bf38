import Didl.Decimal.Binary
import Didl.Decimal.Layout
import Didl.Decimal.Shortest
import Didl.Fault
import Didl.Idl.Check
import Didl.Idl.Denotation
import Didl.Idl.Escape
import Didl.Idl.Failure
import Didl.Idl.Files
import Didl.Idl.Grammar
import Didl.Idl.Import
import Didl.Idl.Interface
import Didl.Idl.Keyword
import Didl.Idl.Layout
import Didl.Idl.Recursion
import Didl.Idl.Scope
import Didl.Idl.Source
import Didl.Idl.Token
import Didl.Idl.TokenReader
import Didl.Idl.Word
import Didl.Json
import Didl.Message
import Didl.Native
import Didl.Prelude.Basic
import Didl.Prelude.Entry
import Didl.Prelude.Expansion
import Didl.Reader
import Didl.Sorted
import Didl.Step
import Didl.Table.Basic
import Didl.Table.Closure
import Didl.Table.Equivalence
import Didl.Text.Printable
import Didl.Text.Quoted
import Didl.Text.Ranges
import Didl.Text.WordChar
import Didl.Type.Basic
import Didl.Type.Display
import Didl.Type.Json
import Didl.Value.Basic
import Didl.Value.Decode
import Didl.Value.Display
import Didl.Value.Encode
import Didl.Value.Json
import Didl.Varint
import Didl.Writer
import Didl.Proofs.Acceptance
import Didl.Proofs.Accesses
import Didl.Proofs.Agreement
import Didl.Proofs.Aliases
import Didl.Proofs.Allowance
import Didl.Proofs.Building
import Didl.Proofs.Chains
import Didl.Proofs.Circles
import Didl.Proofs.ComparisonDepth
import Didl.Proofs.Compiling
import Didl.Proofs.Complements
import Didl.Proofs.Composites
import Didl.Proofs.Contents
import Didl.Proofs.Copying
import Didl.Proofs.Counting
import Didl.Proofs.Courses
import Didl.Proofs.Decimals
import Didl.Proofs.DeclaredNames
import Didl.Proofs.Delimiting
import Didl.Proofs.Denoting
import Didl.Proofs.Descending
import Didl.Proofs.Distinguishing
import Didl.Proofs.Encoding
import Didl.Proofs.EntryAccesses
import Didl.Proofs.EntryFormat
import Didl.Proofs.Environments
import Didl.Proofs.Escaping
import Didl.Proofs.FieldNames
import Didl.Proofs.Finishing
import Didl.Proofs.Fitting
import Didl.Proofs.Forms
import Didl.Proofs.Grounding
import Didl.Proofs.Groups
import Didl.Proofs.Growing
import Didl.Proofs.Independence
import Didl.Proofs.Inhabitation
import Didl.Proofs.Inlining
import Didl.Proofs.JsonTexts
import Didl.Proofs.Lexemes
import Didl.Proofs.Lexing
import Didl.Proofs.Listing
import Didl.Proofs.Meaning
import Didl.Proofs.Measuring
import Didl.Proofs.Merging
import Didl.Proofs.MessageRoundTrip
import Didl.Proofs.NativeMessages
import Didl.Proofs.Neighbours
import Didl.Proofs.Nesting
import Didl.Proofs.Numbers
import Didl.Proofs.OwnMessages
import Didl.Proofs.ParseFaults
import Didl.Proofs.Parsing
import Didl.Proofs.Placing
import Didl.Proofs.PreludeAccesses
import Didl.Proofs.Presenting
import Didl.Proofs.Providing
import Didl.Proofs.ReadAlike
import Didl.Proofs.ReadTables
import Didl.Proofs.ReadTypes
import Didl.Proofs.ReadUnplaced
import Didl.Proofs.Reading
import Didl.Proofs.Rebuilding
import Didl.Proofs.Recognizing
import Didl.Proofs.Recursion
import Didl.Proofs.Reencoding
import Didl.Proofs.Registration
import Didl.Proofs.Rendering
import Didl.Proofs.Rereading
import Didl.Proofs.Restating
import Didl.Proofs.Rewriting
import Didl.Proofs.RoundTrip
import Didl.Proofs.Rounding
import Didl.Proofs.Scalars
import Didl.Proofs.Serving
import Didl.Proofs.Sharing
import Didl.Proofs.Shortening
import Didl.Proofs.Sorting
import Didl.Proofs.Spacing
import Didl.Proofs.Spelling
import Didl.Proofs.Standalone
import Didl.Proofs.Steps
import Didl.Proofs.Streaming
import Didl.Proofs.Sufficiency
import Didl.Proofs.Tables
import Didl.Proofs.TokenReading
import Didl.Proofs.Traversal
import Didl.Proofs.Types
import Didl.Proofs.Unfolding
import Didl.Proofs.Unplacing
import Didl.Proofs.ValueAccesses
import Didl.Proofs.ValueRoundTrip
import Didl.Proofs.Values
import Didl.Proofs.Verdict
import Didl.Proofs.WellFormed
import Didl.Proofs.WholeTables
import Didl.Proofs.Widening
import Didl.Proofs.Wording
import Didl.Proofs.WordReading
import Didl.Proofs.Words
import Didl.Proofs.WriteAlike
import Didl.Proofs.Writing
