import LosslessSql.Node.Basic
import LosslessSql.TokenStream

/-!
# From lexemes to a tree

A builder takes the lexemes of a text one after another.  Every open delimiter has a frame, which
keeps the nodes that stood before it; the nodes read since the innermost one was opened are kept
apart.  At most `maxDepth` delimiters may be open at once.

* `Builder.add`: takes one lexeme, or finds that it cannot stand here.
* `Builder.finish`: the tree, if no delimiter is open any more.
* `TokenStream.parse`: the tree of the lexemes to come.  The stream is left where the reading
  stopped, so that it can be resumed after an error; delimiters open by then are forgotten.
* `parse`: the tree of a whole text.
-/

namespace LosslessSql

/-- The largest number of delimiters that may be open at once. -/
def maxDepth : Nat := 512

/-- An open delimiter, where it was opened, and the nodes before it, the latest first. -/
structure Frame (φ : Type) where
  delimiter : Delimiter
  openedAt : Nat
  before : List (Node φ)

/-- A tree under construction: the open delimiters, the innermost first, and the nodes inside the
innermost of them, the latest first. -/
structure Builder (φ : Type) where
  frames : List (Frame φ)
  nodes : List (Node φ)

namespace Builder

variable {φ : Type}

def empty : Builder φ :=
  ⟨[], []⟩

def addLeaf (b : Builder φ) (l : Leaf) : Builder φ :=
  { b with nodes := .leaf l :: b.nodes }

def openAt (b : Builder φ) (d : Delimiter) (start : Nat) : Except ParseError (Builder φ) :=
  if b.frames.length < maxDepth then
    .ok ⟨⟨d, start, b.nodes⟩ :: b.frames, []⟩
  else
    .error (.nestingTooDeep maxDepth start)

/-- Closes a pair of delimiters at a byte offset; only the innermost open pair can be closed. -/
def closeAt (b : Builder φ) (d : Delimiter) (start : Nat) : Except ParseError (Builder φ) :=
  match b.frames with
  | [] => .error (.unexpectedClosing d.closing none start)
  | frame :: frames =>
    if frame.delimiter = d then
      .ok ⟨frames, .group (some d) b.nodes.reverse :: frame.before⟩
    else
      .error (.unexpectedClosing d.closing (some frame.delimiter.closing) start)

def add (b : Builder φ) (p : Placed) : Except ParseError (Builder φ) :=
  match p.lexeme with
  | .leaf l => .ok (b.addLeaf l)
  | .opening d => b.openAt d p.start
  | .closing d => b.closeAt d p.start

/-- The finished tree of a text that ends at byte offset `stop`. -/
def finish (b : Builder φ) (stop : Nat) : Except ParseError (List (Node φ)) :=
  match b.frames with
  | [] => .ok b.nodes.reverse
  | frame :: _ => .error (.missingClosing frame.delimiter.closing frame.openedAt stop)

end Builder

namespace TokenStream

variable {φ : Type}

/-- The tree of the lexemes to come, or the first error, and where the stream stands then. -/
def parse (t : TokenStream) : Except ParseError (List (Node φ)) × TokenStream :=
  match t.fold Builder.add Builder.empty with
  | (.ok b, t') => (b.finish t'.size, t')
  | (.error e, t') => (.error e, t')

/-- The results of parsing `times` times in a row, each time from where the last one stopped. -/
def parseTimes : Nat → TokenStream → List (Except ParseError (List (Node φ)))
  | 0, _ => []
  | times + 1, t =>
    let (result, t') := t.parse
    result :: parseTimes times t'

end TokenStream

def parse {φ : Type} (source : String) : Except ParseError (List (Node φ)) :=
  (TokenStream.ofText source).parse.1

end LosslessSql
