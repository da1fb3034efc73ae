import LosslessSql.Leaf
import LosslessSql.Span

/-!
# Tokens

A token is a kind and the span that it covers; its text stays in the source.  Tokens can be made by
hand, so the operations that look at the source answer `none` for a span that is no stretch of it.

* `Token.text?`: what the source holds in the span.
* `Token.leaf?`: the leaf that a token stands for, with the marks of its kind cut away by size.
-/

namespace LosslessSql

inductive TokenKind where
  | text
  | space
  | quoted (q : Quote)
  | lineComment
  | blockComment
  | cast
  | ordinal (o : Ordinal)
  | named
  | opening (d : Delimiter)
  | closing (d : Delimiter)
deriving DecidableEq, Repr

namespace TokenKind

def isOpening : TokenKind → Bool
  | .opening _ => true
  | _ => false

def isClosing : TokenKind → Bool
  | .closing _ => true
  | _ => false

/-- The kind that closes what this kind opens. -/
def closedBy? : TokenKind → Option TokenKind
  | .opening d => some (.closing d)
  | _ => none

def delimiterChar? : TokenKind → Option Char
  | .opening d => some d.opening
  | .closing d => some d.closing
  | _ => none

end TokenKind

/-- A kind of token and the bytes of the source that it covers. -/
structure Token where
  kind : TokenKind
  span : Span
deriving DecidableEq, Repr

namespace Token

/-- The characters between a mark of `front` bytes and a mark of `back` bytes. -/
def inner? (front back : Nat) (text : List Char) : Option (List Char) :=
  Span.cut? ⟨front, byteSize text - back⟩ text

def text? (t : Token) (source : String) : Option String :=
  t.span.slice? source

/-- The leaf that a spelling of the given kind stands for.  The marks are not looked at, only their
bytes are dropped, and there is no leaf if too few are left.  Delimiters stand for no leaf: the
answer is then `some none`. -/
def leafOfText? (kind : TokenKind) (text : List Char) : Option (Option Leaf) :=
  match kind with
  | .text => some (some (.text (String.ofList text)))
  | .space => some (some (.space (String.ofList text)))
  | .quoted q => (inner? 1 1 text).map fun body => some (.quoted q (String.ofList body))
  | .lineComment => (inner? 2 0 text).map fun body => some (.lineComment (String.ofList body))
  | .blockComment => (inner? 2 2 text).map fun body => some (.blockComment (String.ofList body))
  | .cast => some (some .cast)
  | .ordinal o => some (some (.ordinal o))
  | .named => (inner? 1 0 text).map fun name => some (.named (String.ofList name))
  | .opening _ => some none
  | .closing _ => some none

/-- The leaf that a token stands for, `some none` for a delimiter, and `none` if the span is no
stretch of the source or is too short for the marks of its kind. -/
def leaf? (t : Token) (source : String) : Option (Option Leaf) := do
  let text ← t.span.cut? source.toList
  leafOfText? t.kind text

end Token

end LosslessSql
