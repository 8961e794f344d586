import Binning.Node.Append

/-!
# Adding children in place

`Binning.Node.append` says what becomes of a node, and there is no node after a refused
addition. A caller that adds to a tree *in place* sees more than this: the node is written
to step by step, and what a failed addition has written stays there, unless it is taken
back. This file has the additions in this form. A computation in place
(`Binning.InPlace`) ends like any other, and it leaves a node however it ends
(`Binning.Edit`).

The one addition that has something to take back is the first range of a node. It rebases
the node before it is known whether the child fits, since the child is measured against the
node as it then is; if the child is rejected, the old range is written back
(`Binning.Node.appendRangeInPlace`). Nothing is taken back if a coordinate leaves its
range on the way.

An addition somewhere in a tree is an addition to the node at the end of a path
(`Binning.Node.appendAtInPlace`), and calls made one after the other all work on the same
tree, refused or not (`Binning.Node.appendAllInPlace`).

The aborting forms leave a node as well, for those who go on after the abort. They report
what was wrong with a child once everything has been taken back
(`Binning.Node.settleOrAbortInPlace`).
-/

namespace Binning

/-- What a computation in place ends with, and what it leaves. -/
structure Edit (β α : Type) where
  /-- What was reported, and how it ended. -/
  run : Run α
  /-- The node, however it ended. -/
  left : Node β

/-- A computation that writes to a node. -/
def InPlace (β α : Type) : Type := Node β → Edit β α

/-- A run whose refusals are values. -/
def Run.caught {α : Type} (r : Run α) : Run (Except BinningError α) :=
  match r.outcome with
  | .ok a => ⟨r.events, .ok (.ok a)⟩
  | .error (.refused cause) => ⟨r.events, .ok (.error cause)⟩
  | .error e => ⟨r.events, .error e⟩

namespace InPlace

variable {β α γ : Type}

/-- Go on with the value of a computation, if it has one, and in any case with the node it
leaves. -/
def andThen (x : InPlace β α) (f : α → InPlace β γ) : InPlace β γ := fun n =>
  match (x n).run.outcome with
  | .ok a =>
    ⟨⟨(x n).run.events ++ (f a (x n).left).run.events, (f a (x n).left).run.outcome⟩,
      (f a (x n).left).left⟩
  | .error e => ⟨⟨(x n).run.events, .error e⟩, (x n).left⟩

instance : Monad (InPlace β) where
  pure a := fun n => ⟨pure a, n⟩
  bind := andThen

/-- The node as it is. -/
def look : InPlace β (Node β) := fun n => ⟨pure n, n⟩

/-- Replace the node. -/
def write (m : Node β) : InPlace β Unit := fun _ => ⟨pure (), m⟩

/-- A computation that does not write. -/
def ofRun (r : Run α) : InPlace β α := fun n => ⟨r, n⟩

/-- Fail, and leave the node as it is. -/
def fail (e : Failure) : InPlace β α := ofRun (Run.fail e)

/-- Write to a child. What is left of the child is its new state in the node. -/
def below (i : Nat) (x : InPlace β α) : InPlace β α := fun n =>
  match n.children[i]? with
  | some child => ⟨(x child).run, { n with children := n.children.set i (x child).left }⟩
  | none => ⟨Run.fail (.outOfRange n.children.length i), n⟩

/-- Write to the node at the end of a path. -/
def atPath (x : InPlace β α) : List Nat → InPlace β α
  | [] => x
  | i :: path => below i (atPath x path)

end InPlace

/-- What rebasing changes in a grouping: the local range, and what is skipped before it. -/
structure Bounds where
  skip : Int
  low : Int
  high : Int
  deriving DecidableEq

namespace Grouping

/-- The local range of a grouping, and what is skipped before it. -/
def bounds (g : Grouping) : Bounds := ⟨g.skip, g.low, g.high⟩

/-- The grouping with another local range. Its groups stay as large as they are. -/
def withBounds (g : Grouping) (b : Bounds) : Grouping :=
  { g with skip := b.skip, low := b.low, high := b.high }

end Grouping

namespace Node

open InPlace

variable {β : Type}

/-- Replace the local range of the node. -/
def writeBounds (b : Bounds) : InPlace β Unit := do
  let n ← look
  write { n with grouping := n.grouping.withBounds b }

/-- Put a child after the other children, and hand it back. -/
def pushInPlace (child : Node β) : InPlace β (Node β) := do
  let n ← look
  write (n.push child)
  return child

variable [BaseAxis β]

/-- **Add a child in place.** The child that was added is handed back. -/
def appendChildInPlace (size skip low : Int) (high : Option Int) : InPlace β (Node β) := do
  let n ← look
  let staged ← ofRun (Run.ofOutcome (n.stage n.grouping size skip low high))
  match staged with
  | .accepted _ child => pushInPlace child
  | .rejected cause _ => fail (.refused cause)

/-- The place of the next range, which is reported. Nothing is placed without a base axis or
in groups of less than one bin. -/
def planRange (n : Node β) (size : Int) (bins : Option Int) : Run Placement :=
  if 1 ≤ size then
    match n.base with
    | none => Run.fail (.refused .missingBaseAxis)
    | some base => do
      let p ← n.place base size bins
      Run.emit (rangeEvent size p)
      return p
  else Run.fail (.refused (.invalidGroupSize size))

/-- Put the child of the next range into the node, which has been rebased already. If the child
is rejected, the node gets back the bounds that were saved. -/
def settleInPlace (size : Int) (p : Placement) (saved : Bounds) : InPlace β (Node β) := do
  let n ← look
  let staged ← ofRun (Run.ofOutcome (n.stage n.grouping size p.skip p.low (some p.high)))
  match staged with
  | .accepted _ child => pushInPlace child
  | .rejected cause _ => do
    writeBounds saved
    fail (.refused cause)

/-- **Add the next range in place.** The first one rebases the node before its child is made,
and takes that back if the child is rejected. -/
def appendRangeInPlace (size : Int) (bins : Option Int) : InPlace β (Node β) := do
  let n ← look
  let p ← ofRun (n.planRange size bins)
  if n.isLeaf then writeBounds p.parent.bounds
  settleInPlace size p n.grouping.bounds

/-- Add a child or a range in place. -/
def appendInPlace : Append → InPlace β (Node β)
  | .child size skip low high => appendChildInPlace size skip low high
  | .range size bins => appendRangeInPlace size bins

/-- Add a child or a range, in place, to the node at the end of a path. -/
def appendAtInPlace (path : List Nat) (a : Append) : InPlace β (Node β) :=
  atPath (appendInPlace a) path

/-- **Additions made one after the other to one tree**, each at the node at the end of a path.
The result has an answer for each call, the new child or the error that was handed back, and
the tree that is left. After a refused call the next one finds the tree as that call has left
it; any other failure ends everything. -/
def appendAllInPlace : List (List Nat × Append) → Node β →
    Outcome (List (Except BinningError (Node β)) × Node β)
  | [], t => .ok ([], t)
  | call :: calls, t =>
    match (appendAtInPlace call.1 call.2 t).run.outcome with
    | .ok child => do
      let (answers, last) ← appendAllInPlace calls (appendAtInPlace call.1 call.2 t).left
      return (.ok child :: answers, last)
    | .error (.refused cause) => do
      let (answers, last) ← appendAllInPlace calls (appendAtInPlace call.1 call.2 t).left
      return (.error cause :: answers, last)
    | .error e => .error e

/-! ### Aborting forms -/

/-- Put a staged child into the node. With options for it, the new child is reported once it is
in its place. A rejected child aborts, which leaves the node as it is. -/
def settleOrAbortInPlace (report : Option DescribeOptions) : Staged β → InPlace β (Node β)
  | .accepted _ child => do
    let child ← pushInPlace child
    match report with
    | some o => do
      let n ← look
      ofRun (n.reportLast o)
    | none => pure ()
    return child
  | .rejected cause child => do
    let n ← look
    ofRun (n.abort cause child)

/-- **Add a child in place, or abort.** -/
def appendChildOrAbortInPlace (size skip low : Int) (high : Option Int)
    (report : Option DescribeOptions) : InPlace β (Node β) := do
  let n ← look
  let staged ← ofRun (Run.ofOutcome (n.stage n.grouping size skip low high))
  settleOrAbortInPlace report staged

/-- Stage the next range in place. The first one rebases the node before its child is made, and
the node gets back its bounds if the child is rejected. -/
def stageRangeInPlace (size : Int) (bins : Option Int) : InPlace β (Staged β) := do
  let n ← look
  let plan ← ofRun (n.planRange size bins).caught
  match plan with
  | .error cause => return .rejected cause none
  | .ok p => do
    if n.isLeaf then writeBounds p.parent.bounds
    let m ← look
    let staged ← ofRun (Run.ofOutcome (m.stage m.grouping size p.skip p.low (some p.high)))
    match staged with
    | .accepted _ _ => return staged
    | .rejected _ _ => do
      writeBounds n.grouping.bounds
      return staged

/-- **Add the next range in place, or abort.** -/
def appendRangeOrAbortInPlace (size : Int) (bins : Option Int) : InPlace β (Node β) := do
  let staged ← stageRangeInPlace size bins
  settleOrAbortInPlace none staged

end Node

end Binning
