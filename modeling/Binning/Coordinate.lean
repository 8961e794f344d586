import Binning.Run

/-!
# Coordinates

Base bins and grouped bins are numbered by signed 64-bit integers. A coordinate
is kept as an integer, and every operation on coordinates checks that its result
is in range (`Binning.Coordinate.checked`); a result out of range is a failure,
never another coordinate. Bin counts are unsigned and enter the coordinates by
wrapping around (`Binning.Coordinate.ofCount`).

`Binning.Coordinate.listFrom` lists what belongs to the coordinates of an interval,
and `Binning.Coordinate.span` is their number.
-/

namespace Binning

namespace Coordinate

/-- The integer is a signed 64-bit number, between `-2 ^ 63` and `2 ^ 63 - 1`. -/
def InRange (x : Int) : Prop := -0x8000000000000000 ≤ x ∧ x < 0x8000000000000000

instance : DecidablePred InRange := fun _ => inferInstanceAs (Decidable (_ ∧ _))

/-- A result that is in range; otherwise an overflow. -/
def checked (x : Int) : Outcome Int := if InRange x then .ok x else .error .overflow

/-- The sum of two coordinates. -/
def add (x y : Int) : Outcome Int := checked (x + y)

/-- The difference of two coordinates. -/
def sub (x y : Int) : Outcome Int := checked (x - y)

/-- The product of two coordinates. -/
def mul (x y : Int) : Outcome Int := checked (x * y)

/-- A bin count as a coordinate: counts of `2 ^ 63` and more come out negative. -/
def ofCount (n : Nat) : Int := Int.bmod n 0x10000000000000000

/-- The bin at a coordinate. Coordinates below the first bin are underflow. -/
def toBin (x : Int) : Nat := x.toNat

/-- The values of `f` at `n` coordinates from `start` on, up to the first failure. -/
def listFrom {α : Type} (f : Int → Outcome α) (start : Int) : Nat → Outcome (List α)
  | 0 => .ok []
  | n + 1 => do
    let a ← f start
    let as ← listFrom f (start + 1) n
    return a :: as

/-- The number of coordinates from `low` to `high`. -/
def span (low high : Int) : Nat := (high - low + 1).toNat

end Coordinate

end Binning
