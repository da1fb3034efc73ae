import LosslessSql.Text.Bytes

/-!
# Byte spans

A span names a stretch of a source by the byte offsets of its two ends.  Spans are plain pairs of
offsets: one that is reversed, reaches beyond the source or cuts a character can be written down,
and `Span.slice?` finds no text there.
-/

namespace LosslessSql

/-- A half-open range of byte offsets; the empty span at the start of the source is the default. -/
structure Span where
  start : Nat := 0
  stop : Nat := 0
deriving DecidableEq, Repr, Inhabited

namespace Span

/-- The number of bytes covered, unless the ends are reversed. -/
def size? (s : Span) : Option Nat :=
  if s.start ≤ s.stop then some (s.stop - s.start) else none

def isEmpty (s : Span) : Bool :=
  s.start == s.stop

/-- The characters of `source` in the span, if its ends are in order and both lie on character
boundaries of the source. -/
def cut? (s : Span) (source : List Char) : Option (List Char) := do
  let size ← s.size?
  let (_, tail) ← splitAtByte? s.start source
  let (middle, _) ← splitAtByte? size tail
  return middle

def slice? (s : Span) (source : String) : Option String :=
  (s.cut? source.toList).map String.ofList

/-- The span between two parts of a text holds exactly what stands between them. -/
theorem cut?_append (before middle after : List Char) :
    cut? ⟨byteSize before, byteSize before + byteSize middle⟩ (before ++ (middle ++ after)) =
      some middle := by
  simp [cut?, size?, splitAtByte?_append]

end Span

end LosslessSql
