import CssSyntax.Text
import CssSyntax.Text.Utf8
import CssSyntax.Text.IgnoreCase
import CssSyntax.Position
import CssSyntax.Lookahead
import CssSyntax.Escape
import CssSyntax.Name
import CssSyntax.Comment
import CssSyntax.Quoted
import CssSyntax.Url
import CssSyntax.Double
import CssSyntax.Double.Shortest
import CssSyntax.Numeral
import CssSyntax.Kind
import CssSyntax.Numeric
import CssSyntax.Numeric.Written
import CssSyntax.Lexeme
import CssSyntax.Units
import CssSyntax.Source
import CssSyntax.Normalizer
import CssSyntax.Token
import CssSyntax.Tokenize
import CssSyntax.Serialize
import CssSyntax.Destination
import CssSyntax.Writing
import CssSyntax.Reader
import CssSyntax.Reader.Span
import CssSyntax.Reader.Lexeme
import CssSyntax.TokenStream
import CssSyntax.Proofs.Normalizing
import CssSyntax.Proofs.Reading
import CssSyntax.Proofs.NormalForm
import CssSyntax.Proofs.Failures
import CssSyntax.Proofs.Steps
import CssSyntax.Proofs.Spans
import CssSyntax.Proofs.Numerals
import CssSyntax.Proofs.Starts
import CssSyntax.Proofs.Lexemes
import CssSyntax.Proofs.Looking
import CssSyntax.Proofs.Tokens
import CssSyntax.Proofs.Streams
import CssSyntax.Proofs.Coverage
import CssSyntax.Proofs.Accounts
import CssSyntax.Proofs.Recovery
import CssSyntax.Proofs.Locality
import CssSyntax.Proofs.Casing
import CssSyntax.Proofs.Relexing
import CssSyntax.Proofs.Escaping
import CssSyntax.Proofs.Identifiers
import CssSyntax.Proofs.Values
import CssSyntax.Proofs.RoundTrip
import CssSyntax.Proofs.Places
import CssSyntax.Proofs.ReadAhead
import CssSyntax.Proofs.Restarting
import CssSyntax.Proofs.Boundaries
import CssSyntax.Proofs.Glyphs
import CssSyntax.Proofs.Decoding
import CssSyntax.Proofs.Forms
import CssSyntax.Proofs.Extending
import CssSyntax.Proofs.Neighbours
import CssSyntax.Proofs.Endings
import CssSyntax.Proofs.Reporting
import CssSyntax.Proofs.Urls
import CssSyntax.Proofs.Terminators
import CssSyntax.Proofs.Hashes
import CssSyntax.Proofs.Words
import CssSyntax.Proofs.Defects
import CssSyntax.Proofs.Rounding
import CssSyntax.Proofs.Literals
import CssSyntax.Proofs.Shortest
import CssSyntax.Proofs.Decimals
import CssSyntax.Proofs.Payloads
import CssSyntax.Proofs.Quantities
import CssSyntax.Proofs.Containment
import CssSyntax.Proofs.Midpoints
import CssSyntax.Proofs.FewestDigits
import CssSyntax.Proofs.Integers
import CssSyntax.Proofs.ShortDecimals
import CssSyntax.Proofs.WellFormed
import CssSyntax.Proofs.Stretches
import CssSyntax.Proofs.Delivering
import CssSyntax.Proofs.Reporters
import CssSyntax.Proofs.Escapes
