import Binning.Axis.Basic

/-!
# Axes of unit bins

An axis need not store its edges. A unit axis (`Binning.UnitAxis`) has bins of
width one from an offset on and computes their edges; it shows that trees ask
nothing of an axis but the functions of `Binning.BaseAxis`. A tree over axes of
two kinds has a sum type for its base (`Binning.instBaseAxisSum`).
-/

namespace Binning

/-- Bins of width one. -/
structure UnitAxis where
  /-- The number of bins. -/
  bins : Nat
  /-- The lower edge of the first bin. -/
  offset : Double
  deriving DecidableEq

instance : BaseAxis UnitAxis where
  binCount a := a.bins
  lowEdge a bin := a.offset + Double.ofNat bin - Double.ofNat 1
  upEdge a bin := a.offset + Double.ofNat bin

instance instBaseAxisSum {α β : Type} [BaseAxis α] [BaseAxis β] : BaseAxis (α ⊕ β) where
  binCount := Sum.elim BaseAxis.binCount BaseAxis.binCount
  lowEdge := Sum.elim BaseAxis.lowEdge BaseAxis.lowEdge
  upEdge := Sum.elim BaseAxis.upEdge BaseAxis.upEdge
  label := Sum.elim BaseAxis.label BaseAxis.label

end Binning
