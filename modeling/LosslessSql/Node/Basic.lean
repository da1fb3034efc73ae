import LosslessSql.Leaf

/-!
# The tree of a query

A node is a leaf, a fragment that the caller defines, or a group of nodes.  A group is fenced by a
pair of delimiters or stands bare; a whole query is a bare sequence of nodes, a `List (Node φ)`.

Fragments can be of any type `φ` that knows its text.  They are leaves for every other purpose.

* `Node.spelling`, `Node.spellAll`: the text of a node and of a sequence.
* `spellAll_append`: a sequence is spelled part after part.
-/

namespace LosslessSql

/-- A type of fragments: all that a tree needs of one is its text. -/
class Fragment (φ : Type) where
  render : φ → String

/-- A part of a query, with fragments of type `φ`.  A group stands between delimiters if `fence`
names a pair. -/
inductive Node (φ : Type) where
  | leaf (l : Leaf)
  | fragment (f : φ)
  | group (fence : Option Delimiter) (children : List (Node φ))

/-- What a node is, without its content. -/
inductive NodeKind where
  | text
  | space
  | quoted (q : Quote)
  | lineComment
  | blockComment
  | cast
  | ordinal
  | named
  | fragment
  | group (fence : Option Delimiter)
deriving DecidableEq, Repr

def Leaf.nodeKind : Leaf → NodeKind
  | .text _ => .text
  | .space _ => .space
  | .quoted q _ => .quoted q
  | .lineComment _ => .lineComment
  | .blockComment _ => .blockComment
  | .cast => .cast
  | .ordinal _ => .ordinal
  | .named _ => .named

namespace Node

variable {φ : Type}

def kind : Node φ → NodeKind
  | .leaf l => l.nodeKind
  | .fragment _ => .fragment
  | .group fence _ => .group fence

def children? : Node φ → Option (List (Node φ))
  | .group _ children => some children
  | _ => none

def isGroup (n : Node φ) : Bool :=
  n.children?.isSome

def fence? : Node φ → Option Delimiter
  | .group fence _ => fence
  | _ => none

def ordinalIndex? : Node φ → Option Nat
  | .leaf (.ordinal o) => o.index?
  | _ => none

/-- The parameter with number `value`, written without leading zeros. -/
def ordinal (value : Int64) : Node φ :=
  .leaf (.ordinal (.ofValue value))

def named (name : String) : Node φ :=
  .leaf (.named name)

/-! ### The text of a tree -/

def fenceOpening (fence : Option Delimiter) : List Char :=
  (fence.map Delimiter.opening).toList

def fenceClosing (fence : Option Delimiter) : List Char :=
  (fence.map Delimiter.closing).toList

section Spelling

variable [Fragment φ]

mutual

/-- The text of a node with all marks and delimiters. -/
def spelling : Node φ → List Char
  | .leaf l => l.spelling
  | .fragment f => (Fragment.render f).toList
  | .group fence children => fenceOpening fence ++ (spellAll children ++ fenceClosing fence)

def spellAll : List (Node φ) → List Char
  | [] => []
  | n :: ns => n.spelling ++ spellAll ns

end

theorem spellAll_eq_flatMap (ns : List (Node φ)) : spellAll ns = ns.flatMap spelling := by
  induction ns with
  | nil => rfl
  | cons n ns ih => rw [spellAll, List.flatMap_cons, ih]

@[simp] theorem spellAll_append (as bs : List (Node φ)) :
    spellAll (as ++ bs) = spellAll as ++ spellAll bs := by
  rw [spellAll_eq_flatMap, spellAll_eq_flatMap, spellAll_eq_flatMap, List.flatMap_append]

theorem spelling_bare (ns : List (Node φ)) : (group none ns).spelling = spellAll ns := by
  rw [spelling]
  exact List.append_nil _

def render (n : Node φ) : String :=
  String.ofList n.spelling

def renderAll (ns : List (Node φ)) : String :=
  String.ofList (spellAll ns)

end Spelling

end Node

end LosslessSql
