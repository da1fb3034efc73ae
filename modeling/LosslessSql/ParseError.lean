import LosslessSql.Span
import LosslessSql.Text.Decimal
import LosslessSql.Text.Quoted

/-!
# Why a text is refused

The causes for which a text has no tree, each with the byte offsets that locate it.

* `ParseError.message`: the sentence shown to a user.
* `ParseError.position`: the one offset that stands for the error.
-/

namespace LosslessSql

/-- The cause for which a text is refused.  The span of a quotation or comment without an end runs
to the end of the text, and that of an ordinal covers the parameter.  `expected` is the closing
delimiter that would have fitted. -/
inductive ParseError where
  | unterminatedQuote (quote : Char) (span : Span)
  | unterminatedComment (span : Span)
  | unexpectedClosing (found : Char) (expected : Option Char) (position : Nat)
  | missingClosing (expected : Char) (openedAt position : Nat)
  | nestingTooDeep (limit position : Nat)
  | ordinalOutOfRange (span : Span)
deriving DecidableEq, Repr

namespace ParseError

def number (n : Nat) : String :=
  String.ofList (decimalNat n)

def message : ParseError → String
  | .unterminatedQuote quote span =>
    "unterminated quote: expected closing " ++ quotedChar quote ++ " for quote opened at byte "
      ++ number span.start ++ ", got end of input"
  | .unterminatedComment span =>
    "unterminated comment: expected closing \"*/\" for comment opened at byte "
      ++ number span.start ++ ", got end of input"
  | .unexpectedClosing found none position =>
    "unexpected closing " ++ quotedChar found ++ " at byte " ++ number position
  | .unexpectedClosing found (some expected) position =>
    "unexpected closing " ++ quotedChar found ++ " at byte " ++ number position
      ++ ", expected " ++ quotedChar expected
  | .missingClosing expected openedAt _ =>
    "missing closing delimiter " ++ quotedChar expected ++ " for delimiter opened at byte "
      ++ number openedAt
  | .nestingTooDeep limit position =>
    "nesting too deep: more than " ++ number limit ++ " open delimiters at byte "
      ++ number position
  | .ordinalOutOfRange span =>
    "invalid ordinal parameter at byte " ++ number span.start ++ ": number out of range"

/-- The byte offset where the error shows: for what is never closed the end of the text, otherwise
the start of the offending token. -/
def position : ParseError → Nat
  | .unterminatedQuote _ span => span.stop
  | .unterminatedComment span => span.stop
  | .unexpectedClosing _ _ position => position
  | .missingClosing _ _ position => position
  | .nestingTooDeep _ position => position
  | .ordinalOutOfRange span => span.start

end ParseError

end LosslessSql
