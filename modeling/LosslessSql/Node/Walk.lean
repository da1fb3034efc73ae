import LosslessSql.Node.Basic

/-!
# Walks that edit a tree

A walk takes a visitor from slot to slot.  In each slot the visitor sees the node that stood there
before the walk, leaves a node behind, passes its state on, and may stop the walk with an error.  A
node that it leaves behind is not visited again.  When the walk is stopped, the slot of that visit
keeps what was left there and all later slots keep what they had.

* `Node.walkLeaves`: visits the leaves, at any depth.
* `Node.walkChildren`: visits the nodes directly under a group, or a leaf itself.
-/

namespace LosslessSql

/-- What a visit, or a whole walk, leaves behind: what stands in the slot now, the state that is
passed on, and the error that stops the walk. -/
structure Visited (α σ ε : Type) where
  value : α
  state : σ
  stop : Option ε

abbrev Visitor (φ σ ε : Type) := σ → Node φ → Visited (Node φ) σ ε

/-- The visitor that does the same and never stops a walk. -/
def Visitor.steady {φ σ ε : Type} (visit : Visitor φ σ ε) : Visitor φ σ ε := fun s n =>
  { visit s n with stop := none }

namespace Node

variable {φ σ ε : Type}

/-- Visits the nodes of a sequence from left to right until one visit stops the walk. -/
def visitEach (visit : Visitor φ σ ε) (s : σ) : List (Node φ) → Visited (List (Node φ)) σ ε
  | [] => ⟨[], s, none⟩
  | n :: ns =>
    let first := visit s n
    match first.stop with
    | some e => ⟨first.value :: ns, first.state, some e⟩
    | none =>
      let others := visitEach visit first.state ns
      ⟨first.value :: others.value, others.state, others.stop⟩

def walkChildren (visit : Visitor φ σ ε) (s : σ) : Node φ → Visited (Node φ) σ ε
  | .group fence children =>
    let walked := visitEach visit s children
    ⟨.group fence walked.value, walked.state, walked.stop⟩
  | n => visit s n

mutual

def walkLeaves (visit : Visitor φ σ ε) (s : σ) : Node φ → Visited (Node φ) σ ε
  | .leaf l => visit s (.leaf l)
  | .fragment f => visit s (.fragment f)
  | .group fence children =>
    let walked := walkLeavesAll visit s children
    ⟨.group fence walked.value, walked.state, walked.stop⟩

def walkLeavesAll (visit : Visitor φ σ ε) (s : σ) :
    List (Node φ) → Visited (List (Node φ)) σ ε
  | [] => ⟨[], s, none⟩
  | n :: ns =>
    let first := walkLeaves visit s n
    match first.stop with
    | some e => ⟨first.value :: ns, first.state, some e⟩
    | none =>
      let others := walkLeavesAll visit first.state ns
      ⟨first.value :: others.value, others.state, others.stop⟩

end

end Node

end LosslessSql
