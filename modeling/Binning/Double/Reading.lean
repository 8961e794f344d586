import Binning.Double.Basic
import Binning.Numeral

/-!
# Reading a numeral as a double

A numeral is read in two steps, and each step rounds.

The leading digits, as many as fit 64 bits, make the **significand**
(`Binning.Double.significand`). Whole digits beyond it only raise the exponent,
and fraction digits beyond it are dropped. The significand becomes a double, and
one multiplication or division by a power of ten sets the exponent
(`Binning.Double.scale?`). A number too small for one division is divided by
`10 ^ 308` first, so that it may end at zero; a number too large for one
multiplication, or whose product is infinite, is out of range.

`Binning.Double.ofNumeral?` is the double of a numeral, and `none` where it is
out of range. For at most fifteen digits and exponents up to 22 both operands are
exact, and the result is the double nearest to the number that is written.
-/

namespace Binning

namespace Double

/-- Significands are below this bound, `2 ^ 64`. -/
def significandBound : Nat := 0x10000000000000000

/-- The significand after whole digits, and the number of digits left over. -/
def takeWhole : Nat → List Digit → Nat × Nat
  | s, [] => (s, 0)
  | s, d :: ds =>
    if s * 10 + d.val < significandBound then takeWhole (s * 10 + d.val) ds
    else (s, ds.length + 1)

/-- The significand after fraction digits, and the number of digits taken. -/
def takeFraction : Nat → List Digit → Nat × Nat
  | s, [] => (s, 0)
  | s, d :: ds =>
    if s * 10 + d.val < significandBound then
      let (t, k) := takeFraction (s * 10 + d.val) ds
      (t, k + 1)
    else (s, 0)

/-- The significand of a numeral and the power of ten that goes with it. -/
def significand (n : Numeral) : Nat × Int :=
  let (s, left) := takeWhole 0 n.whole
  let (t, taken) := takeFraction s n.fraction
  let e := match n.exponent with
    | none => 0
    | some e => e.value
  (t, (left : Int) - taken + e)

/-- The largest power of ten that a double is multiplied or divided by. -/
def largestPower : Nat := 308

/-- A power of ten, rounded to a double. -/
def powerOfTen (k : Nat) : Double := nearest 1 k

/-- Division by `10 ^ k` in steps. A significand is zero after three of them. -/
def scaleDown : Nat → Double → Nat → Double
  | 0, x, _ => x
  | fuel + 1, x, k =>
    if k ≤ largestPower then x / powerOfTen k
    else if x.magnitude = 0 then x
    else scaleDown fuel (x / powerOfTen largestPower) (k - largestPower)

/-- A significand times a power of ten; `none` out of range. -/
def scale? (s : Nat) (e : Int) : Option Double :=
  let x := ofNat s
  if e < 0 then some (scaleDown 3 x e.natAbs)
  else if e ≤ largestPower then
    let y := x * powerOfTen e.toNat
    if y.isFinite then some y else none
  else if s = 0 then some x
  else none

/-- The double that a numeral stands for; `none` out of range. -/
def ofNumeral? (n : Numeral) : Option Double :=
  let (s, e) := significand n
  (scale? s e).map fun x => if n.negative then -x else x

end Double

end Binning
