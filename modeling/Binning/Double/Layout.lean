import Binning.Double.Shortest
import Binning.Numeral

/-!
# Writing doubles

A format that writes doubles takes its digits from `Binning.Dyadic.shortest` and
decides the rest in one record (`Binning.Layout`): which numbers are written
positionally, whether a whole number keeps a point, how an exponent is signed and
which of two equally near decimals is taken.

* `Binning.Layout.numeral` – a finite double as a numeral;
* `Binning.Layout.text` – any double as text.
-/

namespace Binning

/-- The decisions of a format that writes doubles. The *place* of a number is the
exponent of its leading digit. -/
structure Layout where
  /-- The lowest place written positionally; `none` for all. -/
  lowestPlain : Option Int
  /-- The highest place written positionally; `none` for all. -/
  highestPlain : Option Int
  /-- A whole number written positionally ends in `.0`. -/
  pointZero : Bool
  /-- The sign written before a positive exponent. -/
  positiveExponent : Option Sign
  /-- Which of two equally near decimals is written. -/
  tie : Tie
  deriving DecidableEq, Repr

namespace Layout

/-- The number is written positionally. -/
def plain (l : Layout) (place : Int) : Bool :=
  l.lowestPlain.all (fun low => decide (low ≤ place)) &&
    l.highestPlain.all (fun high => decide (place ≤ high))

/-- The fraction of a whole number. -/
def wholeFraction (l : Layout) : List Digit := if l.pointZero then [0] else []

/-- A positive decimal, written positionally. -/
def positional (l : Layout) (negative : Bool) (d : Decimal) : Numeral :=
  let ds := Digit.listOf d.digits
  if 0 ≤ d.exponent then
    ⟨negative, ds ++ List.replicate d.exponent.toNat 0, l.wholeFraction, none⟩
  else
    let behind := (-d.exponent).toNat
    if behind < ds.length then
      ⟨negative, ds.take (ds.length - behind), ds.drop (ds.length - behind), none⟩
    else
      ⟨negative, [0], List.replicate (behind - ds.length) 0 ++ ds, none⟩

/-- A positive decimal, written with an exponent. -/
def scientific (l : Layout) (negative : Bool) (d : Decimal) : Numeral :=
  let ds := Digit.listOf d.digits
  let place := d.exponent + ds.length - 1
  let sign := if place < 0 then some .minus else l.positiveExponent
  ⟨negative, ds.take 1, ds.drop 1, some ⟨sign, Digit.listOf place.natAbs⟩⟩

/-- **A finite double as a numeral.** Zero keeps its sign. -/
def numeral (l : Layout) (x : Double) : Numeral :=
  if x.magnitude = 0 then ⟨x.negative, [0], l.wholeFraction, none⟩
  else
    let d := (Dyadic.ofMagnitude x.magnitude).shortest l.tie
    let place := d.exponent + (Digit.listOf d.digits).length - 1
    if l.plain place then l.positional x.negative d else l.scientific x.negative d

/-- Any double as text. -/
def text (l : Layout) (x : Double) : String :=
  if x.isNaN then "NaN"
  else if x.isFinite then (l.numeral x).text
  else if x.negative then "-inf"
  else "inf"

end Layout

end Binning
