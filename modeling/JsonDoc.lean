import JsonDoc.Binary64.Interchange
import JsonDoc.Document.Read
import JsonDoc.Dump.Sink
import JsonDoc.Dump.Serializer
import JsonDoc.Traversal
import JsonDoc.Value.Compare
import JsonDoc.Value.Convert
import JsonDoc.Value.Inspect
import JsonDoc.Value.Path
import JsonDoc.Proofs.Binary64.Nearest
import JsonDoc.Proofs.Binary64.Digits
import JsonDoc.Proofs.Decimal.Digits
import JsonDoc.Proofs.Decimal.Nearest
import JsonDoc.Proofs.Binary64.Error
import JsonDoc.Proofs.Binary64.Tolerance
import JsonDoc.Proofs.Elements
import JsonDoc.Proofs.Members
import JsonDoc.Proofs.Mapping
import JsonDoc.Proofs.Token.Text
import JsonDoc.Proofs.Source.Encoding
import JsonDoc.Proofs.Token.NumberLiteral
import JsonDoc.Proofs.Token.Numeral
import JsonDoc.Proofs.Token.Rounding
import JsonDoc.Proofs.Token.Integer
import JsonDoc.Proofs.Token.StringLiteral
import JsonDoc.Proofs.Token.Spelling
import JsonDoc.Proofs.Token.Extent
import JsonDoc.Proofs.Token.Cause
import JsonDoc.Proofs.Document.Grammar
import JsonDoc.Proofs.Document.Run
import JsonDoc.Proofs.Document.Soundness
import JsonDoc.Proofs.Document.Completeness
import JsonDoc.Proofs.Document.Tokens
import JsonDoc.Proofs.Document.Nesting
import JsonDoc.Proofs.Document.Depth
import JsonDoc.Proofs.Document.Extent
import JsonDoc.Proofs.Document.Prefix
import JsonDoc.Proofs.Document.Encoding
import JsonDoc.Proofs.Value.Keyed
import JsonDoc.Proofs.Value.Finite
import JsonDoc.Proofs.Value.Equality
import JsonDoc.Proofs.Value.Mutation
import JsonDoc.Proofs.Dump.Quotation
import JsonDoc.Proofs.Dump.Sink
import JsonDoc.Proofs.Dump.Written
import JsonDoc.Proofs.Dump.Precision
import JsonDoc.Proofs.Dump.Number
import JsonDoc.Proofs.Dump.Scraped
import JsonDoc.Proofs.Dump.Serializer
import JsonDoc.Proofs.Dump.Writer
import JsonDoc.Proofs.Dump.RoundTrip
import JsonDoc.Proofs.Dump.Layout
import JsonDoc.Proofs.Dump.Equality
import JsonDoc.Proofs.Binary64.Comparison
import JsonDoc.Proofs.Value.Parts
import JsonDoc.Proofs.Value.Comparison
import JsonDoc.Proofs.Value.StrictOrder
import JsonDoc.Proofs.Value.History
import JsonDoc.Proofs.Value.Operation
import JsonDoc.Proofs.Value.Traced
import JsonDoc.Proofs.Value.Telling
import JsonDoc.Proofs.Value.Mirrored
import JsonDoc.Proofs.Document.Traced
import JsonDoc.Proofs.Document.Origin
import JsonDoc.Proofs.Value.Sort
import JsonDoc.Proofs.Document.Sort
import JsonDoc.Proofs.Value.Policy
import JsonDoc.Proofs.Source.Reader
import JsonDoc.Proofs.Token.EndOfInput
import JsonDoc.Proofs.Document.Lexer
import JsonDoc.Proofs.Dump.Reserialize
import JsonDoc.Proofs.Dump.Float
import JsonDoc.Proofs.Dump.Exact
import JsonDoc.Proofs.Value.Assignment
import JsonDoc.Proofs.Dump.Arrangement
import JsonDoc.Proofs.Dump.Printable
import JsonDoc.Proofs.Dump.Indentation
import JsonDoc.Proofs.Token.Bracket
import JsonDoc.Proofs.Value.Extraction
import JsonDoc.Proofs.Token.Room
import JsonDoc.Proofs.Source.Character
import JsonDoc.Proofs.Document.Counter
