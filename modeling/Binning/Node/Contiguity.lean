import Binning.Node.Describe

/-!
# Contiguity

The children of a node are contiguous if each one starts at the base bin after
the end of the one before it (`Binning.Node.validateContiguity`). Only the direct
children count, and a node without children tiles nothing. The first fault is
reported as a warning, so contiguous children are those without an event.

The start of a child is shifted by the `low` of its parent: the range that was
added first has rebased the parent, and the later ones are counted from there.
-/

namespace Binning

namespace Node

variable {β : Type} [BaseAxis β]

/-- The warning about a node without children. -/
def untiledEvent : Event where
  level := .warn
  message := "Axis node has no children, nothing tiles its range"
  fields := []

/-- The warning about a child that does not start where it should. -/
def gapEvent (index : Nat) (start expected : Int) (description : String) : Event where
  level := .warn
  message := "Axis node children are not contiguous\n" ++ description
  fields := [("child", toString index), ("start", toString start),
    ("expected", toString expected)]

/-- The base bin after the end of a node. -/
def next (n : Node β) : Outcome Int := do
  let stop ← n.grouping.stop
  Coordinate.add stop 1

/-- The base bin at which a node starts, shifted by the `low` of its parent. -/
def shiftedStart (n : Node β) (low : Int) : Outcome Int := do
  let start ← n.grouping.start
  let shifted ← Coordinate.add start low
  Coordinate.sub shifted 1

/-- Children from number `index` on are contiguous, the first of them starting at
`expected`. -/
def follow (low : Int) : Nat → Int → List (Node β) → Run Bool
  | _, _, [] => return true
  | index, expected, child :: rest => do
    let start ← child.shiftedStart low
    if start = expected then
      let expected ← child.next
      follow low (index + 1) expected rest
    else
      let description ← child.describe DescribeOptions.full.withoutRanges
      Run.emit (gapEvent index start expected description)
      return false

/-- **The children of a node are contiguous**, in the order in which they were
added. -/
def validateContiguity (n : Node β) : Run Bool :=
  match n.children with
  | [] => do
    Run.emit untiledEvent
    return false
  | first :: rest => do
    let expected ← first.next
    follow n.grouping.low 1 expected rest

end Node

end Binning
