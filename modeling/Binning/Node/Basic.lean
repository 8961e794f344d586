import Binning.Axis.Basic
import Binning.Grouping

/-!
# Rebinning trees

A node (`Binning.Node`) groups the bins of a base axis, and its children divide
its local range into parts with groupings of their own. A tree is its root.

* `Binning.Node.blank` – a node without a base axis;
* `Binning.Node.withBase` – the node over a base axis;
* `Binning.Node.ofBase`, `Binning.Node.make` – roots.

Nodes below a root are found by paths, the list of child numbers on the way down
(`Binning.Node.get?`), and changed there by `Binning.Node.updateAt`.
-/

namespace Binning

/-- A node of a rebinning tree. -/
structure Node (β : Type) where
  /-- The axis whose bins are grouped. -/
  base : Option β
  /-- How they are grouped. -/
  grouping : Grouping
  /-- The parts of the local range, in order. -/
  children : List (Node β)

namespace Node

variable {β : Type}

/-- A node without a base axis and without children. -/
def blank : Node β := ⟨none, Grouping.identity, []⟩

/-- The node has no children. -/
def isLeaf (n : Node β) : Bool := n.children.isEmpty

/-- The node with another child after its children. -/
def push (n : Node β) (child : Node β) : Node β := { n with children := n.children ++ [child] }

section Base

variable [BaseAxis β]

/-- The node over a base axis. What fits the axis is counted anew, and an empty
local range becomes everything that fits. Children keep their own axis. -/
def withBase (n : Node β) (base : β) : Outcome (Node β) := do
  let g := n.grouping
  let count ← Grouping.fit (BaseAxis.binCount base) g.size g.skip
  let high := if g.high < g.low then count else g.high
  return { n with base := some base, grouping := { g with high := high, count := count } }

/-- The root over a base axis, bin by bin. -/
def ofBase (base : β) : Outcome (Node β) := blank.withBase base

/-- A root over a base axis with a grouping of its own. -/
def make (base : β) (size skip low : Int) (high : Option Int) : Outcome (Node β) :=
  if h : 1 ≤ size then do
    let g ← Grouping.make (BaseAxis.binCount base) size skip low high h
    return ⟨some base, g, []⟩
  else Outcome.refuse (.invalidGroupSize size)

end Base

/-! ### Paths -/

/-- The node at the end of a path. -/
def get? : List Nat → Node β → Option (Node β)
  | [], n => some n
  | i :: path, n => n.children[i]?.bind (get? path)

/-- The tree with the node at the end of a path changed by `f`. -/
def updateAt (f : Node β → Run (Node β)) : List Nat → Node β → Run (Node β)
  | [], n => f n
  | i :: path, n =>
    match n.children[i]? with
    | some child => do
      let child ← updateAt f path child
      return { n with children := n.children.set i child }
    | none => Run.fail (.outOfRange n.children.length i)

end Node

end Binning
