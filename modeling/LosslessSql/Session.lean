import LosslessSql.Edit
import LosslessSql.Node.Builder
import LosslessSql.Node.Equality
import LosslessSql.Node.Leaves
import LosslessSql.Node.Path

/-!
# Editing sessions

A session holds a tree that is being edited and a spare copy beside it.  Commands look at the tree
or change it, mostly in a slot named by a path; the root is the bare group of all nodes.  A command
that cannot be carried out changes nothing.

* `Session.run`: carries out one command and says what came of it.
* `Session.runAll`: carries out commands in turn.
-/

namespace LosslessSql

inductive Reach where
  | children
  | leaves
deriving DecidableEq, Repr

inductive End where
  | first
  | last
deriving DecidableEq, Repr

/-- What can be done in the slot that a path names.  `render` puts the text behind the one given; an
error stops `walk` only if it is `stopping`, and `editEach` passes over errors; `appendCopy` appends
the spare copy as one bare group. -/
inductive SlotCommand where
  | render (before : String)
  | describe
  | visit (reach : Reach)
  | children
  | leafAt (which : End)
  | walk (reach : Reach) (stopping : Bool) (edit : Edit)
  | editLeafAt (which : End) (edit : Edit)
  | editEach (edit : Edit)
  | extend (nodes : List (Node Snippet))
  | replace (index : Nat) (new : Node Snippet)
  | put (new : Node Snippet)
  | reverse
  | copy
  | appendCopy

/-- What can be done in a session.  `reparse` goes on with the tree that the text of the tree reads
as. -/
inductive Command where
  | slot (path : Path) (command : SlotCommand)
  | dump
  | nest (fence : Option Delimiter)
  | copy
  | swap
  | compare
  | reparse

/-- What a node is, as far as it can be told without its content. -/
structure Description where
  kind : NodeKind
  children : Option Nat
  fence : Option Delimiter
  ordinalIndex : Option Nat
deriving DecidableEq, Repr

/-- What came of a command.  `visits` has nothing to show for a leaf that was asked for its
children; `noSuchSlot` is the outcome where a path leads nowhere, or to a leaf where a group is
needed. -/
inductive Outcome where
  | done
  | text (s : String)
  | description (d : Description)
  | truth (b : Bool)
  | nodes (ns : List (Node Snippet))
  | node? (n : Option (Node Snippet))
  | visits (seen : Option (List (NodeKind × String)))
  | walked (log : EditLog) (stop : Option EditError)
  | looped (log : EditLog)
  | reparsed (same : Bool)
  | refused (e : ParseError)
  | outOfBounds
  | noSuchSlot

/-- A tree that is being edited, and a spare copy. -/
structure Session where
  tree : List (Node Snippet)
  copy : List (Node Snippet) := []

namespace Node

def glance (n : Node Snippet) : NodeKind × String :=
  (n.kind, n.render)

def describe (n : Node Snippet) : Description where
  kind := n.kind
  children := n.children?.map List.length
  fence := n.fence?
  ordinalIndex := n.ordinalIndex?

def reached (reach : Reach) (n : Node Snippet) : List (Node Snippet) :=
  match reach with
  | .children => n.visible
  | .leaves => n.leaves

def walk {σ ε : Type} (reach : Reach) (visit : Visitor Snippet σ ε) (s : σ) (n : Node Snippet) :
    Visited (Node Snippet) σ ε :=
  match reach with
  | .children => n.walkChildren visit s
  | .leaves => n.walkLeaves visit s

def leafAt? (which : End) (n : Node Snippet) : Option (Node Snippet) :=
  match which with
  | .first => n.firstLeaf?
  | .last => n.lastLeaf?

def replaceLeafAt? (which : End) (new n : Node Snippet) : Option (Node Snippet) :=
  match which with
  | .first => replaceFirstLeaf? new n
  | .last => replaceLastLeaf? new n

end Node

namespace Session

def root (s : Session) : Node Snippet :=
  .group none s.tree

/-- The session with `new` in the slot that a path names; only a bare group can stand at the
root. -/
def put? (s : Session) (path : Path) (new : Node Snippet) : Option Session :=
  match Node.put? new path s.root with
  | some (.group none tree) => some { s with tree }
  | _ => none

def onGroup (s : Session) (path : Path) (n : Node Snippet)
    (change : List (Node Snippet) → Outcome × List (Node Snippet)) : Outcome × Session :=
  match n with
  | .group fence children =>
    let (outcome, children') := change children
    match s.put? path (.group fence children') with
    | some s' => (outcome, s')
    | none => (.noSuchSlot, s)
  | _ => (.noSuchSlot, s)

def putting (s : Session) (path : Path) (new : Node Snippet) (outcome : Outcome) :
    Outcome × Session :=
  match s.put? path new with
  | some s' => (outcome, s')
  | none => (.noSuchSlot, s)

/-- Carries out a command in the slot at `path`, where `n` stands. -/
def runSlot (s : Session) (path : Path) (n : Node Snippet) : SlotCommand → Outcome × Session
  | .render before => (.text (before ++ n.render), s)
  | .describe => (.description n.describe, s)
  | .visit reach => (.visits (some ((n.reached reach).map Node.glance)), s)
  | .children => (.visits (n.children?.map (List.map Node.glance)), s)
  | .leafAt which => (.node? (n.leafAt? which), s)
  | .walk reach stopping edit =>
    let visit := if stopping then edit.visitor else edit.visitor.steady
    let walked := n.walk reach visit {}
    s.putting path walked.value (.walked walked.state walked.stop)
  | .editLeafAt which edit =>
    match n.leafAt? which with
    | none => (.walked {} none, s)
    | some leaf =>
      let visited := edit.visitor {} leaf
      match Node.replaceLeafAt? which visited.value n with
      | some n' => s.putting path n' (.walked visited.state none)
      | none => (.noSuchSlot, s)
  | .editEach edit => s.onGroup path n fun children =>
    let walked := Node.visitEach edit.visitor.steady {} children
    (.looped walked.state, walked.value)
  | .extend nodes => s.onGroup path n fun children => (.done, children ++ nodes)
  | .replace index new => s.onGroup path n fun children =>
    match children[index]? with
    | some old => (.node? (some old), children.set index new)
    | none => (.outOfBounds, children)
  | .put new => s.putting path new .done
  | .reverse => s.onGroup path n fun children => (.done, children.reverse)
  | .copy => (.done, { s with copy := [n] })
  | .appendCopy => s.onGroup path n fun children => (.done, children ++ [.group none s.copy])

def run (s : Session) : Command → Outcome × Session
  | .slot path command =>
    match s.root.get? path with
    | some n => s.runSlot path n command
    | none => (.noSuchSlot, s)
  | .dump => (.nodes s.tree, s)
  | .nest fence => (.done, { s with tree := [.group fence s.tree] })
  | .copy => (.done, { s with copy := s.tree })
  | .swap => (.done, ⟨s.copy, s.tree⟩)
  | .compare => (.truth (s.tree == s.copy), s)
  | .reparse =>
    match parse (Node.renderAll s.tree) with
    | .ok tree => (.reparsed (tree == s.tree), { s with tree })
    | .error e => (.refused e, s)

/-- Carries out commands in turn: what came of each, with the session as it was after it. -/
def runAll (s : Session) : List Command → List (Outcome × Session)
  | [] => []
  | command :: commands =>
    let (outcome, s') := s.run command
    (outcome, s') :: runAll s' commands

end Session

end LosslessSql
