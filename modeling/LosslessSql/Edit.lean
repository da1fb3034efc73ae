import LosslessSql.Node.Params
import LosslessSql.Snippet

/-!
# Edits

An edit says what a walk does in every slot: which nodes it changes, how, and at which visit it
fails.  It keeps a log of what it saw.  A failing edit leaves its node as it was.

* `Edit.visitor`: the visitor that carries out an edit.
-/

namespace LosslessSql

/-- What an edit does to a node.  `append` and `upper` change the payload of a leaf that has a
textual one, `flatten` and `snippet` put its text in its place, and `wrap` puts a group there that
holds it alone. -/
inductive Action where
  | keep
  | put (n : Node Snippet)
  | append (s : String)
  | upper
  | flatten
  | snippet
  | wrap (fence : Option Delimiter)
  | clear
  | number
  | name (args : List String)
  | fail

/-- A change to the nodes that a walk visits: to those of the kinds in `only`, or to all, and with a
failure at the visit `failAt`, counted from one. -/
structure Edit where
  only : Option (List NodeKind)
  failAt : Option Nat
  action : Action

/-- What an edit has seen: the nodes by kind and text, as they were before it, and the names of the
parameters that it numbered, in the order of first sight. -/
structure EditLog where
  visited : Array (NodeKind × String) := #[]
  names : List String := []

inductive EditError where
  | visit (count : Nat)
  | index (i : Nat)
  | refused (text : String)
deriving DecidableEq, Repr

def EditError.message : EditError → String
  | .visit count => "visit " ++ String.ofList (decimalNat count)
  | .index i => "index " ++ String.ofList (decimalNat i)
  | .refused text => "fail " ++ text

namespace Action

def onPayload (f : String → String) : Node Snippet → Node Snippet
  | .leaf l => .leaf (l.mapPayload f)
  | n => n

def capitals (s : String) : String :=
  String.ofList (s.toList.map Char.toUpper)

/-- Carries out an action; the state is the list of parameter names seen. -/
def visitor : Action → Visitor Snippet (List String) EditError
  | .keep => fun names n => ⟨n, names, none⟩
  | .put new => fun names _ => ⟨new, names, none⟩
  | .append s => fun names n => ⟨onPayload (· ++ s) n, names, none⟩
  | .upper => fun names n => ⟨onPayload capitals n, names, none⟩
  | .flatten => fun names n => ⟨.leaf (.text n.render), names, none⟩
  | .snippet => fun names n => ⟨.fragment (.verbatim n.render), names, none⟩
  | .wrap fence => fun names n => ⟨.group fence [n], names, none⟩
  | .clear => fun names n =>
    match n with
    | .group fence _ => ⟨.group fence [], names, none⟩
    | n => ⟨n, names, none⟩
  | .number => Node.numberParam
  | .name args => fun names n =>
    let visited := Node.nameParam args names n
    { visited with stop := visited.stop.map .index }
  | .fail => fun names n => ⟨n, names, some (.refused n.render)⟩

end Action

namespace Edit

def concerns (e : Edit) (kind : NodeKind) : Bool :=
  match e.only with
  | none => true
  | some kinds => kinds.contains kind

/-- Carries out an edit: logs the node, fails if this is the visit to fail, and acts on the node if
the edit concerns its kind. -/
def visitor (e : Edit) : Visitor Snippet EditLog EditError := fun log n =>
  let visited := log.visited.push (n.kind, n.render)
  if e.failAt = some visited.size then
    ⟨n, ⟨visited, log.names⟩, some (.visit visited.size)⟩
  else if e.concerns n.kind then
    let acted := e.action.visitor log.names n
    ⟨acted.value, ⟨visited, acted.state⟩, acted.stop⟩
  else
    ⟨n, ⟨visited, log.names⟩, none⟩

end Edit

end LosslessSql
