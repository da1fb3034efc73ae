import LosslessSql.Edit
import LosslessSql.Leaf
import LosslessSql.Lexeme
import LosslessSql.Lexeme.Scan
import LosslessSql.Node.Basic
import LosslessSql.Node.Builder
import LosslessSql.Node.Equality
import LosslessSql.Node.Leaves
import LosslessSql.Node.Params
import LosslessSql.Node.Path
import LosslessSql.Node.Walk
import LosslessSql.Ordinal
import LosslessSql.ParseError
import LosslessSql.Proofs.Boundaries
import LosslessSql.Proofs.Continuation
import LosslessSql.Proofs.Cursor.Basic
import LosslessSql.Proofs.Cursor.Run
import LosslessSql.Proofs.Cursor.Scan
import LosslessSql.Proofs.Enclosing
import LosslessSql.Proofs.EndLeaves
import LosslessSql.Proofs.Equality
import LosslessSql.Proofs.Hygiene
import LosslessSql.Proofs.Lexeme.Exact
import LosslessSql.Proofs.Lexeme.Grammar
import LosslessSql.Proofs.Lexeme.Joining
import LosslessSql.Proofs.Lexeme.Neighbours
import LosslessSql.Proofs.Lexeme.Sequence
import LosslessSql.Proofs.Nesting
import LosslessSql.Proofs.Node.Builder
import LosslessSql.Proofs.Node.Canonical
import LosslessSql.Proofs.Node.Lexemes
import LosslessSql.Proofs.Node.Paths
import LosslessSql.Proofs.Node.Putting
import LosslessSql.Proofs.Node.Slots
import LosslessSql.Proofs.Node.Spans
import LosslessSql.Proofs.Node.Stack
import LosslessSql.Proofs.Numerals
import LosslessSql.Proofs.Ordinal
import LosslessSql.Proofs.Params
import LosslessSql.Proofs.Parse
import LosslessSql.Proofs.Pieces
import LosslessSql.Proofs.Regrouping
import LosslessSql.Proofs.Replacement
import LosslessSql.Proofs.Resume
import LosslessSql.Proofs.Rewriting
import LosslessSql.Proofs.RoundTrip
import LosslessSql.Proofs.Text.Utf8
import LosslessSql.Proofs.Token
import LosslessSql.Proofs.TokenStream.History
import LosslessSql.Proofs.TokenStream.Results
import LosslessSql.Proofs.TokenStream.Shift
import LosslessSql.Proofs.TokenStream.Step
import LosslessSql.Proofs.TokenStream.Unbuffered
import LosslessSql.Proofs.Verdict
import LosslessSql.Proofs.Walks
import LosslessSql.Session
import LosslessSql.Snippet
import LosslessSql.Span
import LosslessSql.Symbol
import LosslessSql.Text.Bytes
import LosslessSql.Text.Classes
import LosslessSql.Text.CodePoints
import LosslessSql.Text.Combining
import LosslessSql.Text.Decimal
import LosslessSql.Text.Quoted
import LosslessSql.Text.Unprintable
import LosslessSql.Token
import LosslessSql.TokenStream
