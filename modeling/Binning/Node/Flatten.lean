import Binning.Node.Basic

/-!
# Flattening a tree

The children of a node imply a list of edges (`Binning.Node.flattenedEdges`): the
lower edge of the first child, and then the upper edge of every grouped bin of
every child. `Binning.Node.flatten` gives these edges to an axis.

Room is made first for one edge more than the node has grouped bins, even if there
are fewer in the end, and then for the grouped bins of each child in turn. The
edges of a child are looked up only once there is room for all of them.
-/

namespace Binning

namespace Node

variable {β : Type} [BaseAxis β]

/-- The number of grouped bins in the local range of a node. -/
def span (n : Node β) : Nat := Coordinate.span n.grouping.low n.grouping.high

/-- The upper edges of the grouped bins of a node, on a base axis. -/
def upEdges (base : β) (n : Node β) : Outcome (List Double) :=
  Coordinate.listFrom (fun b => do
    let last ← n.grouping.lastBase b
    return BaseAxis.upEdge base (Coordinate.toBin last)) n.grouping.low n.span

/-- The upper edges of the grouped bins of nodes, on a base axis, after `taken`
other edges. -/
def upEdgesOfAll (base : β) (taken : Nat) : List (Node β) → Outcome (List Double)
  | [] => .ok []
  | n :: ns => do
    Capacity.forEntries (taken + n.span)
    let here ← upEdges base n
    let rest ← upEdgesOfAll base (taken + n.span) ns
    return here ++ rest

/-- **The edges that the children of a node imply**; none without children. -/
def flattenedEdges (n : Node β) : Outcome (List Double) :=
  match n.base, n.children with
  | some base, first :: _ => do
    let room ← Coordinate.add n.grouping.count 1
    Capacity.forEntries room.toNat
    let start ← first.grouping.start
    let up ← upEdgesOfAll base 1 n.children
    return BaseAxis.lowEdge base (Coordinate.toBin start) :: up
  | _, _ => .ok []

/-- The event that reports a flattened node. -/
def flattenEvent (edges : Nat) : Event where
  level := .debug
  message := "Flattened axis node"
  fields := [("edges", toString edges)]

/-- **Give an axis the edges that the children of a node imply.** Without children
the axis stays as it is. -/
def flatten (n : Node β) (target : Axis) : Run Axis := do
  let edges ← n.flattenedEdges
  if edges.isEmpty then return target
  else
    Run.emit (flattenEvent edges.length)
    return target.setEdges edges

end Node

end Binning
