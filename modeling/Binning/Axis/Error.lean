import Binning.Double.Layout

/-!
# What can be wrong with an axis

The reasons for which edges, bounds or labels do not make an axis
(`Binning.AxisError`), and their texts (`Binning.AxisError.message`).

Two formats for doubles belong here: a bound is written positionally, however
large or small it is (`Binning.Layout.bound`), and a list of edges keeps each
number recognisable as a double (`Binning.Layout.edge`).
-/

namespace Binning

/-- Bounds are always written positionally, and a whole number has no point. -/
def Layout.bound : Layout where
  lowestPlain := none
  highestPlain := none
  pointZero := false
  positiveExponent := none
  tie := .up

/-- In a list of edges a number below `10 ^ 16` that is not too small is written
positionally, with a point; the others have an exponent. -/
def Layout.edge : Layout where
  lowestPlain := some (-4)
  highestPlain := some 15
  pointZero := true
  positiveExponent := none
  tie := .up

/-- Why edges, bounds or labels do not make an axis. -/
inductive AxisError where
  /-- There is not even one bin. -/
  | empty
  /-- The lower bound of a uniform axis is not below its upper bound. -/
  | invalidRange (low high : Double)
  /-- An edge is not below the next one. -/
  | notAscending (edges : List Double)
  /-- There is not one label for each bin. -/
  | labelCount (labels bins : Nat)
  deriving DecidableEq

/-- The text of an axis error. -/
def AxisError.message : AxisError → String
  | .empty => "Axis must contain at least one bin"
  | .invalidRange low high =>
    "Axis lower bound (" ++ Layout.bound.text low ++ ") must be below upper bound (" ++
      Layout.bound.text high ++ ")"
  | .notAscending edges =>
    "Edges must be in ascending order: [" ++
      ", ".intercalate (edges.map Layout.edge.text) ++ "]"
  | .labelCount labels bins =>
    "Label count (" ++ toString labels ++ ") does not match bin count (" ++ toString bins ++ ")"

end Binning
