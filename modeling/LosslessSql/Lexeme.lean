import LosslessSql.Token

/-!
# Lexemes

A lexeme is a leaf or one delimiter.  Unlike a token it carries its content, so it can be spelled
without the source.  `Placed` adds where a lexeme stands; a placed lexeme determines its token.
-/

namespace LosslessSql

/-- A leaf, or a delimiter on its own. -/
inductive Lexeme where
  | leaf (l : Leaf)
  | opening (d : Delimiter)
  | closing (d : Delimiter)
deriving DecidableEq, Repr

def Leaf.tokenKind : Leaf → TokenKind
  | .text _ => .text
  | .space _ => .space
  | .quoted q _ => .quoted q
  | .lineComment _ => .lineComment
  | .blockComment _ => .blockComment
  | .cast => .cast
  | .ordinal o => .ordinal o
  | .named _ => .named

namespace Lexeme

def spelling : Lexeme → List Char
  | .leaf l => l.spelling
  | .opening d => [d.opening]
  | .closing d => [d.closing]

def tokenKind : Lexeme → TokenKind
  | .leaf l => l.tokenKind
  | .opening d => .opening d
  | .closing d => .closing d

def size (x : Lexeme) : Nat :=
  byteSize x.spelling

end Lexeme

/-- A lexeme and the byte offset where it starts. -/
structure Placed where
  lexeme : Lexeme
  start : Nat
deriving DecidableEq, Repr

namespace Placed

def stop (p : Placed) : Nat :=
  p.start + p.lexeme.size

def token (p : Placed) : Token :=
  ⟨p.lexeme.tokenKind, ⟨p.start, p.stop⟩⟩

end Placed

end LosslessSql
