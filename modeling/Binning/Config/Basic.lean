import Binning.CutSet

/-!
# Configurations

A configuration (`Binning.Config`) describes the binning of several dimensions:
for each one an axis, perhaps labels, and the ranges that divide it. It is used in
two steps, since trees are built over axes that exist:

* `Binning.Config.buildAxes` – the axes of all dimensions;
* `Binning.Config.buildCutSet` – a tree over each of these axes.
-/

namespace Binning

/-- An axis, as it is described. -/
inductive AxisSpec where
  /-- Bins of equal width. -/
  | uniform (bins : Nat) (low high : Double)
  /-- Bins between given edges. -/
  | edges (edges : List Double)
  deriving DecidableEq

/-- A range, as it is described. -/
structure RangeSpec where
  /-- The number of base bins in a group. -/
  size : Int
  /-- The number of grouped bins; without it the range runs to the end. -/
  bins : Option Int
  deriving DecidableEq

/-- A dimension, as it is described. -/
structure Dimension where
  name : Option String
  axis : AxisSpec
  labels : Option (List String)
  /-- The ranges, in the order in which they are added. -/
  ranges : List RangeSpec
  deriving DecidableEq

/-- The binning of several dimensions, as it is described. -/
structure Config where
  dimensions : List Dimension
  deriving DecidableEq

/-- The axis that is described. -/
def AxisSpec.build : AxisSpec → Outcome Axis
  | .uniform bins low high => Axis.uniform bins low high
  | .edges es => Outcome.ofAxis (Axis.ofEdges es)

namespace Dimension

/-- The name of dimension number `index`: its own, or one made from the number. -/
def displayName (d : Dimension) (index : Nat) : String := d.name.getD ("dim" ++ toString index)

/-- The axis of a dimension, with its labels. -/
def buildAxis (d : Dimension) : Outcome Axis := do
  let a ← d.axis.build
  match d.labels with
  | some ls => Outcome.ofAxis (a.withLabels ls)
  | none => return a

/-- A tree with ranges added one after the other. -/
def addRanges (n : Node Axis) : List RangeSpec → Run (Node Axis)
  | [] => return n
  | r :: rs => do
    let n ← n.appendRange r.size r.bins
    addRanges n rs

/-- The event that reports the tree of a dimension. -/
def treeEvent (d : Dimension) (index : Nat) : Event where
  level := .debug
  message := "Built rebinning tree"
  fields := [("dimension", d.displayName index), ("ranges", toString d.ranges.length)]

/-- The tree of dimension number `index` over an axis. -/
def buildTree (d : Dimension) (index : Nat) (axis : Axis) : Run (Node Axis) := do
  let root ← Node.ofBase axis
  let tree ← addRanges root d.ranges
  Run.emit (d.treeEvent index)
  return tree

end Dimension

namespace Config

/-- The names of the dimensions from number `index` on. -/
def namesFrom : Nat → List Dimension → List String
  | _, [] => []
  | index, d :: ds => d.displayName index :: namesFrom (index + 1) ds

/-- The names of all dimensions. -/
def names (c : Config) : List String := namesFrom 0 c.dimensions

/-- **The axes of all dimensions.** -/
def buildAxes (c : Config) : Outcome (List Axis) := c.dimensions.mapM Dimension.buildAxis

/-- The trees of the dimensions from number `index` on, each over its axis. -/
def buildTreesFrom : Nat → List (Dimension × Axis) → Run (List (Node Axis))
  | _, [] => return []
  | index, (d, axis) :: rest => do
    let tree ← d.buildTree index axis
    let trees ← buildTreesFrom (index + 1) rest
    return tree :: trees

/-- **The cut set of all dimensions**, over one axis for each of them. -/
def buildCutSet (c : Config) (axes : List Axis) : Run (CutSet Axis) :=
  if axes.length = c.dimensions.length then do
    let trees ← buildTreesFrom 0 (c.dimensions.zip axes)
    return ⟨trees⟩
  else Run.fail (.refused (.dimensionCount c.dimensions.length axes.length))

end Config

end Binning
