import LosslessSql.Ordinal
import LosslessSql.Symbol

/-!
# Leaves

The smallest meaningful pieces of a query: runs of blanks, quotations, comments, casts, parameters,
and plain text in between.  A leaf holds its payload without the marks around it; `Leaf.spelling`
puts the marks back.
-/

namespace LosslessSql

/-- A piece of a query that has no parts. -/
inductive Leaf where
  | text (s : String)
  | space (s : String)
  | quoted (q : Quote) (body : String)
  | lineComment (body : String)
  | blockComment (body : String)
  | cast
  | ordinal (o : Ordinal)
  | named (name : String)
deriving DecidableEq, Repr

namespace Leaf

/-- The text of a leaf with all its marks. -/
def spelling : Leaf → List Char
  | .text s => s.toList
  | .space s => s.toList
  | .quoted q body => q.mark :: (body.toList ++ [q.mark])
  | .lineComment body => '-' :: '-' :: body.toList
  | .blockComment body => '/' :: '*' :: (body.toList ++ ['*', '/'])
  | .cast => [':', ':']
  | .ordinal o => '$' :: o.spelling
  | .named name => ':' :: name.toList

/-- Changes the payload of a leaf that has a textual one; casts and ordinals stay as they are. -/
def mapPayload (f : String → String) : Leaf → Leaf
  | .text s => .text (f s)
  | .space s => .space (f s)
  | .quoted q body => .quoted q (f body)
  | .lineComment body => .lineComment (f body)
  | .blockComment body => .blockComment (f body)
  | .cast => .cast
  | .ordinal o => .ordinal o
  | .named name => .named (f name)

end Leaf

end LosslessSql
