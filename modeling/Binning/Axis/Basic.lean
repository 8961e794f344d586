import Binning.Capacity
import Binning.Coordinate

/-!
# Axes

A **base axis** (`Binning.BaseAxis`) is the finest binning of one dimension. Its
bins are numbered from `1`; bin `0` and the bin after the last one stand for
underflow and overflow, and every index has edges, so that nothing a tree may ask
for is missing.

The axes of this library (`Binning.Axis`) are lists of edges, perhaps with a
label for each bin. They are made by

* `Binning.Axis.uniform` – bins of equal width;
* `Binning.Axis.ofEdges` – ascending edges;
* `Binning.Axis.withLabels` – one label for each bin,

and `Binning.Axis.setEdges` replaces the binning without any check.

`Binning.Axis.findBin` finds the bin of a number: `0` below the axis, the bin
count plus one at and above its last edge.
-/

namespace Binning

/-- The finest binning of one dimension. -/
class BaseAxis (α : Type) where
  /-- The number of bins. -/
  binCount : α → Nat
  /-- The lower edge of a bin. -/
  lowEdge : α → Nat → Double
  /-- The upper edge of a bin. -/
  upEdge : α → Nat → Double
  /-- The label of a bin. -/
  label : α → Nat → Option String := fun _ _ => none

/-- An axis given by its edges. -/
structure Axis where
  /-- The edges of the bins, one more than there are bins. -/
  edges : List Double
  /-- The labels of the bins, if they have any. -/
  labels : Option (List String)
  deriving DecidableEq

namespace Axis

/-- The number of bins between the edges. -/
def binCount (a : Axis) : Nat := a.edges.length - 1

/-- The lower edge of a bin. The bin after the last one starts at the last edge. -/
def lowEdge (a : Axis) (bin : Nat) : Double :=
  if bin = 0 then -Double.infinity else a.edges.getD (bin - 1) Double.infinity

/-- The upper edge of a bin. The underflow bin ends at the first edge. -/
def upEdge (a : Axis) (bin : Nat) : Double := a.edges.getD bin Double.infinity

/-- The label of a bin. -/
def label (a : Axis) (bin : Nat) : Option String :=
  if bin = 0 then none else a.labels.bind fun ls => ls[bin - 1]?

instance : BaseAxis Axis := ⟨binCount, lowEdge, upEdge, label⟩

/-- The lowest edge, or NaN without any. -/
def min (a : Axis) : Double := a.edges.head?.getD Double.nan

/-- The highest edge, or NaN without any. -/
def max (a : Axis) : Double := a.edges.getLast?.getD Double.nan

/-! ### Making axes -/

/-- Each number is below the next one. -/
def ascending : List Double → Bool
  | x :: y :: rest => decide (x < y) && ascending (y :: rest)
  | _ => true

/-- The axis with these edges, which must be ascending. -/
def ofEdges (edges : List Double) : Except AxisError Axis :=
  if edges.length < 2 then .error .empty
  else if ascending edges then .ok ⟨edges, none⟩
  else .error (.notAscending edges)

/-- The edges of `bins` bins of equal width from `low` to `high`. The last edge is
`high` itself and not a rounded sum. -/
def uniformEdges (bins : Nat) (low high : Double) : List Double :=
  let width := (high - low) / Double.ofNat bins
  (List.range bins).map (fun i => low + width * Double.ofNat i) ++ [high]

/-- The axis of `bins` bins of equal width from `low` to `high`. -/
def uniform (bins : Nat) (low high : Double) : Outcome Axis :=
  if bins = 0 then Outcome.ofAxis (.error .empty)
  else if low < high then do
    Capacity.forEntries (bins + 1)
    return ⟨uniformEdges bins low high, none⟩
  else Outcome.ofAxis (.error (.invalidRange low high))

/-- The axis with labels, one for each bin. -/
def withLabels (a : Axis) (labels : List String) : Except AxisError Axis :=
  if labels.length = a.binCount then .ok { a with labels := some labels }
  else .error (.labelCount labels.length a.binCount)

/-- Other edges for an axis, unchecked. Its labels described the old bins. -/
def setEdges (_ : Axis) (edges : List Double) : Axis := ⟨edges, none⟩

/-- The axes have numerically the same edges, and the same labels. -/
def same (a b : Axis) : Bool :=
  a.edges.length == b.edges.length && (a.edges.zip b.edges).all (fun e => e.1.numEq e.2) &&
    a.labels == b.labels

/-! ### Finding the bin of a number -/

/-- Narrow `size` edges from `base` on to the last one that is not above `x`, in
the total order. Each step halves what is left, whatever it finds. -/
def lastNotAbove (edges : List Double) (x : Double) : Nat → Nat → Nat → Nat
  | 0, base, _ => base
  | fuel + 1, base, size =>
    if size ≤ 1 then base
    else
      let half := size / 2
      let mid := base + half
      let above := x.totalRank < (edges.getD mid Double.infinity).totalRank
      lastNotAbove edges x fuel (if above then base else mid) (size - half)

/-- The number of edges that are not above `x`, if the edges are ascending. -/
def countNotAbove (edges : List Double) (x : Double) : Nat :=
  match edges with
  | [] => 0
  | _ =>
    let base := lastNotAbove edges x edges.length 0 edges.length
    if (edges.getD base Double.infinity).totalRank ≤ x.totalRank then base + 1 else base

/-- **The bin of a number.** Bins contain their lower edge and not their upper one.
Numbers below the axis, and NaN, are in bin `0`; those at or above the last edge
are in the bin after the last one. -/
def findBin (a : Axis) (x : Double) : Nat :=
  if a.min ≤ x then countNotAbove a.edges x else 0

end Axis

end Binning
