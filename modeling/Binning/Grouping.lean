import Binning.Coordinate

/-!
# Groupings

A grouping (`Binning.Grouping`) folds `size` consecutive base bins into one
grouped bin, after skipping the first `skip` of them. The base bins of grouped
bin `b` run from

`(b - 1) * size + 1 + skip` to `b * size + skip`

(`Binning.Grouping.firstBase`, `Binning.Grouping.lastBase`). Groups of one bin are
an exception: there grouped and base bins have the same numbers, and the skip
offset plays no part.

A grouping also has a **local range** of grouped bins, `low` to `high`, which may
be empty, and the number `count` of grouped bins that fit its axis.
-/

namespace Binning

/-- How base bins are folded into grouped bins, and which of these are meant. -/
structure Grouping where
  /-- The number of base bins in a group. -/
  size : Int
  /-- The number of base bins before the first group. -/
  skip : Int
  /-- The first grouped bin of the local range. -/
  low : Int
  /-- The last grouped bin of the local range. -/
  high : Int
  /-- The number of grouped bins that fit the axis; negative if the skipped bins
  alone are more than the axis has. -/
  count : Int
  size_pos : 1 ≤ size
  deriving DecidableEq

namespace Grouping

/-- Every base bin by itself, and an empty local range. -/
def identity : Grouping := ⟨1, 0, 1, 0, 0, by decide⟩

/-- The number of groups of `size` bins after `skip` bins that fit `bins` bins. -/
def fit (bins : Nat) (size skip : Int) : Outcome Int := do
  let rest ← Coordinate.sub (Coordinate.ofCount bins) skip
  return rest / size

/-- The grouping of an axis of `bins` bins, with a local range from `low` to `high`.
Without `high`, and where it is below `low`, the range ends with the axis. -/
def make (bins : Nat) (size skip low : Int) (high : Option Int) (size_pos : 1 ≤ size) :
    Outcome Grouping := do
  let count ← fit bins size skip
  let high := match high with
    | some h => if low ≤ h then h else count
    | none => count
  return ⟨size, skip, low, high, count, size_pos⟩

/-- The first base bin of a grouped bin. -/
def firstBase (g : Grouping) (b : Int) : Outcome Int :=
  if g.size = 1 then .ok b
  else do
    let before ← Coordinate.sub b 1
    let skipped ← Coordinate.mul before g.size
    let first ← Coordinate.add skipped 1
    Coordinate.add first g.skip

/-- The last base bin of a grouped bin. -/
def lastBase (g : Grouping) (b : Int) : Outcome Int :=
  if g.size = 1 then .ok b
  else do
    let last ← Coordinate.mul b g.size
    Coordinate.add last g.skip

/-- The first base bin of the local range. -/
def start (g : Grouping) : Outcome Int := g.firstBase g.low

/-- The last base bin of the local range. -/
def stop (g : Grouping) : Outcome Int := g.lastBase g.high

end Grouping

end Binning
