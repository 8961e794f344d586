import Binning.Node.Describe

/-!
# Adding children to a node

Children are added in two ways.

* `Binning.Node.appendChild` – a child with a given grouping and local range;
* `Binning.Node.appendRange` – the **next range**: a child whose place follows
  from the children before it, so that ranges tile the node without any counting
  by the caller (`Binning.Node.place`).

Either way the child is first *staged* (`Binning.Staged`): it is made, and it is
accepted only if it does not end beyond its parent. The first range also rebases
its parent, whose range is then counted in groups of the new size
(`Binning.Grouping.rebase`); the staged child is measured against the rebased
parent, and a rejected child leaves the node as it was.

Both have an aborting form for callers that cannot go on without the child
(`Binning.Node.appendChildOrAbort`, `Binning.Node.appendRangeOrAbort`). It reports
what was wrong before it aborts.
-/

namespace Binning

/-- A child on its way into a node. -/
inductive Staged (β : Type) where
  /-- The child fits; the parent gets this grouping. -/
  | accepted (parent : Grouping) (child : Node β)
  /-- The child cannot be added. It is kept if it could be made at all. -/
  | rejected (cause : BinningError) (child : Option (Node β))

/-- Where the next range of a node goes. -/
structure Placement where
  skip : Int
  low : Int
  high : Int
  /-- The grouping of the parent once it has the range. -/
  parent : Grouping
  deriving DecidableEq

namespace Grouping

/-- The local range of a grouping, counted in groups of `size` bins. The range
keeps its length: its end moves with the remainder that becomes the skip offset. -/
def rebase (g : Grouping) (size : Int) : Outcome Grouping := do
  let skip := g.low % size
  let before ← Coordinate.sub skip 1
  let high ← Coordinate.sub g.high before
  return { g with skip := skip, low := g.low / size, high := high }

/-- The number of base bins in the local range. It is negative if the range ends
more than one bin before it starts. -/
def width (g : Grouping) : Outcome Int := do
  let span ← Coordinate.sub g.high g.low
  let bins ← Coordinate.add span 1
  Coordinate.mul g.size bins

/-- The last group of `size` bins after `skip` bins that lies within a parent and
within an axis of `bins` bins. -/
def lastWithin (parent : Grouping) (bins : Nat) (size skip : Int) : Outcome Int := do
  let stop ← parent.stop
  let rest ← Coordinate.sub (min stop (Coordinate.ofCount bins)) skip
  return rest / size

end Grouping

/-- The sum of the widths of nodes, added to `total`. -/
def totalWidth {β : Type} (total : Int) : List (Node β) → Outcome Int
  | [] => .ok total
  | n :: ns => do
    let width ← n.grouping.width
    let total ← Coordinate.add total width
    totalWidth total ns

namespace Node

variable {β : Type} [BaseAxis β]

/-! ### Staging -/

/-- Make a child of a node whose grouping will be `parent`, and see whether it
fits. Without `high` the child ends with its parent. -/
def stage (n : Node β) (parent : Grouping) (size skip low : Int) (high : Option Int) :
    Outcome (Staged β) :=
  match n.base with
  | none => return .rejected .missingBaseAxis none
  | some base =>
    if h : 1 ≤ size then do
      let high := high.getD parent.high
      let g ← Grouping.make (BaseAxis.binCount base) size skip low (some high) h
      let child : Node β := ⟨some base, g, []⟩
      let childEnd ← g.stop
      let parentEnd ← parent.stop
      if childEnd ≤ parentEnd then return .accepted parent child
      else return .rejected (.containment childEnd parentEnd) (some child)
    else return .rejected (.invalidGroupSize size) none

/-- **The place of the next range.** The first range starts where the node starts,
which is thereby rebased. A later one starts after the bins of all ranges before
it; a skip offset of the node shifts it. Without a number of bins the range runs
to the end of the node, but not beyond the axis. -/
def place (n : Node β) (base : β) (size : Int) (bins : Option Int) : Outcome Placement :=
  let count := BaseAxis.binCount base
  if n.isLeaf then do
    let parent ← n.grouping.rebase size
    let high ← match bins with
      | some b => .ok b
      | none => parent.lastWithin count size parent.skip
    return ⟨parent.skip, parent.low, high, parent⟩
  else do
    let before ← totalWidth 0 n.children
    let low ← Coordinate.add (before / size) 1
    let skip ←
      if n.grouping.skip = 0 then .ok (before % size)
      else Coordinate.add (before % size) n.grouping.skip
    let high ← match bins with
      | some b => do
        let next ← Coordinate.add low b
        Coordinate.sub next 1
      | none => n.grouping.lastWithin count size skip
    return ⟨skip, low, high, n.grouping⟩

/-- The event that reports a range before it is staged. -/
def rangeEvent (size : Int) (p : Placement) : Event where
  level := .info
  message := "Appending axis range"
  fields := [("group_size", toString size), ("skip_offset", toString p.skip),
    ("local_min", toString p.low), ("local_max", toString p.high)]

/-- Stage the next range of a node. -/
def stageRange (n : Node β) (size : Int) (bins : Option Int) : Run (Staged β) :=
  if 1 ≤ size then
    match n.base with
    | none => return .rejected .missingBaseAxis none
    | some base => do
      let p ← n.place base size bins
      Run.emit (rangeEvent size p)
      n.stage p.parent size p.skip p.low (some p.high)
  else return .rejected (.invalidGroupSize size) none

/-- The node with a staged child, if it is accepted. -/
def settle (n : Node β) : Staged β → Outcome (Node β)
  | .accepted parent child => .ok { n with grouping := parent, children := n.children ++ [child] }
  | .rejected cause _ => Outcome.refuse cause

/-! ### Adding a child or a range -/

/-- **Add a child.** Without `high` it ends with its parent. -/
def appendChild (n : Node β) (size skip low : Int) (high : Option Int) : Run (Node β) := do
  let staged ← n.stage n.grouping size skip low high
  n.settle staged

/-- **Add the next range**, of `bins` grouped bins or up to the end. -/
def appendRange (n : Node β) (size : Int) (bins : Option Int) : Run (Node β) := do
  let staged ← n.stageRange size bins
  n.settle staged

/-! ### Aborting forms -/

/-- Report why a child cannot be added, and abort. -/
def abort (n : Node β) (cause : BinningError) (child : Option (Node β)) : Run (Node β) := do
  let parent ← n.describe DescribeOptions.full.onlyBase
  Run.emit ⟨.error, cause.message ++ "\nParent:\n" ++ parent, []⟩
  match child with
  | some c => do
    let text ← c.describe DescribeOptions.full.withoutRanges
    Run.emit ⟨.error, "Offending child:\n" ++ text, []⟩
  | none => pure ()
  Run.fail (.aborted cause)

/-- The node with a staged child; a rejected child aborts. -/
def settleOrAbort (n : Node β) : Staged β → Run (Node β)
  | .accepted parent child =>
    return { n with grouping := parent, children := n.children ++ [child] }
  | .rejected cause child => n.abort cause child

/-- Report the last child of a node. -/
def reportLast (n : Node β) (o : DescribeOptions) : Run Unit :=
  match n.children.getLast? with
  | some child => do
    let text ← child.describe o
    Run.emit ⟨.info, "Appended axis node\n" ++ text, []⟩
  | none => pure ()

/-- Add a child, or abort. With options for it, the new child is reported. -/
def appendChildOrAbort (n : Node β) (size skip low : Int) (high : Option Int)
    (report : Option DescribeOptions) : Run (Node β) := do
  let staged ← n.stage n.grouping size skip low high
  let m ← n.settleOrAbort staged
  match report with
  | some o => m.reportLast o
  | none => pure ()
  return m

/-- Add the next range, or abort. -/
def appendRangeOrAbort (n : Node β) (size : Int) (bins : Option Int) : Run (Node β) := do
  let staged ← n.stageRange size bins
  n.settleOrAbort staged

end Node

/-- A child or a range to be added. -/
inductive Append where
  | child (size skip low : Int) (high : Option Int)
  | range (size : Int) (bins : Option Int)
  deriving DecidableEq

namespace Node

variable {β : Type} [BaseAxis β]

/-- Add a child or a range. -/
def append (a : Append) (n : Node β) : Run (Node β) :=
  match a with
  | .child size skip low high => n.appendChild size skip low high
  | .range size bins => n.appendRange size bins

/-- Add a child or a range to the node at the end of a path. -/
def appendAt (path : List Nat) (a : Append) (n : Node β) : Run (Node β) :=
  updateAt (append a) path n

end Node

end Binning
