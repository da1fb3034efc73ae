import LosslessSql.Node.Basic

/-!
# Slots by path

A slot of a tree is named by the indexes that lead to it, from the root downwards.

* `Node.get?`: the node in a slot.
* `Node.put?`: the tree with another node in a slot.
* `get?_of_put?`: what was put into a slot stands there.
-/

namespace LosslessSql

/-- Child indexes from the root downwards; the empty path leads to the root. -/
abbrev Path := List Nat

namespace Node

variable {φ : Type}

def get? : Path → Node φ → Option (Node φ)
  | [], n => some n
  | i :: path, .group _ children => children[i]?.bind (get? path)
  | _ :: _, _ => none

/-- The tree with `new` at the end of a path; `none` if the path leads nowhere. -/
def put? (new : Node φ) : Path → Node φ → Option (Node φ)
  | [], _ => some new
  | i :: path, .group fence children => do
    let child ← children[i]?
    let child' ← put? new path child
    return .group fence (children.set i child')
  | _ :: _, _ => none

theorem get?_of_put? {new n n' : Node φ} {path : Path} (h : put? new path n = some n') :
    get? path n' = some new := by
  induction path generalizing n n' with
  | nil =>
    cases Option.some.inj h
    rfl
  | cons i path ih =>
    cases n with
    | leaf l => exact absurd h (by simp [put?])
    | fragment f => exact absurd h (by simp [put?])
    | group fence children =>
      simp only [put?, Option.bind_eq_bind, Option.pure_def, Option.bind_eq_some_iff] at h
      obtain ⟨child, hchild, child', hput, he⟩ := h
      cases Option.some.inj he
      obtain ⟨hi, _⟩ := List.getElem?_eq_some_iff.1 hchild
      simp only [get?, List.getElem?_set_self hi, Option.bind_some]
      exact ih hput

end Node

end LosslessSql
