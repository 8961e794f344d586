/-!
# Double-precision numbers, by their bits

The edges of an axis are double-precision numbers. They are kept here as their
64-bit pattern, so that everything an axis *decides* about edges is exact
integer arithmetic:

* `Binning.Double.rank` – the place of a number in the **numeric order**, which
  does not tell the two zeros apart and knows nothing of NaN
  (`Binning.Double.instLT`, `Binning.Double.instLE`);
* `Binning.Double.totalRank` – its place in the **total order** of bit patterns,
  in which `-0.0` lies below `0.0` and every NaN has a place too.

Only the construction of uniform axes computes new numbers, and it uses the
arithmetic of `Float` (`Binning.Double.instAdd` and its companions).
-/

namespace Binning

/-- A double-precision number, as its bit pattern. -/
structure Double where
  /-- The sign bit, eleven exponent bits and fifty-two fraction bits. -/
  bits : UInt64
  deriving DecidableEq, Inhabited

namespace Double

/-! ### Reading the pattern -/

/-- The sign bit is set. -/
def negative (x : Double) : Bool := decide (0x8000000000000000 ≤ x.bits.toNat)

/-- The pattern without its sign bit. Magnitudes order the absolute values. -/
def magnitude (x : Double) : Nat := x.bits.toNat % 0x8000000000000000

/-- The magnitude of the infinities: all exponent bits set, no fraction bit. -/
def infiniteMagnitude : Nat := 0x7FF0000000000000

/-- The pattern stands for no number. -/
def isNaN (x : Double) : Bool := decide (infiniteMagnitude < x.magnitude)

/-- The pattern stands for a real number. -/
def isFinite (x : Double) : Bool := decide (x.magnitude < infiniteMagnitude)

/-- The number with the other sign. -/
def neg (x : Double) : Double := ⟨x.bits ^^^ 0x8000000000000000⟩

instance : Neg Double := ⟨neg⟩

/-- Positive zero. -/
def zero : Double := ⟨0⟩

/-- Positive infinity. -/
def infinity : Double := ⟨0x7FF0000000000000⟩

/-- The NaN that stands for a missing edge. -/
def nan : Double := ⟨0x7FF8000000000000⟩

/-! ### The numeric order -/

/-- The place of a number in the numeric order: both zeros are at `0`, and the
numbers of either sign go outwards from there. -/
def rank (x : Double) : Int :=
  if x.negative then -(x.magnitude : Int) else x.magnitude

/-- The numeric order: false as soon as one side is NaN. -/
instance instLT : LT Double :=
  ⟨fun x y => x.isNaN = false ∧ y.isNaN = false ∧ x.rank < y.rank⟩

/-- The numeric order with equality: false as soon as one side is NaN. -/
instance instLE : LE Double :=
  ⟨fun x y => x.isNaN = false ∧ y.isNaN = false ∧ x.rank ≤ y.rank⟩

theorem lt_def {x y : Double} :
    x < y ↔ x.isNaN = false ∧ y.isNaN = false ∧ x.rank < y.rank := Iff.rfl

theorem le_def {x y : Double} :
    x ≤ y ↔ x.isNaN = false ∧ y.isNaN = false ∧ x.rank ≤ y.rank := Iff.rfl

instance (x y : Double) : Decidable (x < y) := decidable_of_iff _ lt_def.symm

instance (x y : Double) : Decidable (x ≤ y) := decidable_of_iff _ le_def.symm

/-- Numeric equality: the two zeros are equal, and NaN equals nothing. -/
def numEq (x y : Double) : Bool := decide (x ≤ y) && decide (y ≤ x)

/-! ### The total order -/

/-- The place of a bit pattern in the total order: negative patterns lie below
all positive ones, in the reverse order of their magnitudes. -/
def totalRank (x : Double) : Int :=
  if x.negative then -(x.magnitude : Int) - 1 else x.magnitude

/-! ### Arithmetic -/

/-- The machine number with this pattern. -/
def toFloat (x : Double) : Float := Float.ofBits x.bits

/-- The pattern of a machine number. -/
def ofFloat (x : Float) : Double := ⟨x.toBits⟩

instance instAdd : Add Double := ⟨fun x y => ofFloat (x.toFloat + y.toFloat)⟩

instance instSub : Sub Double := ⟨fun x y => ofFloat (x.toFloat - y.toFloat)⟩

instance instMul : Mul Double := ⟨fun x y => ofFloat (x.toFloat * y.toFloat)⟩

instance instDiv : Div Double := ⟨fun x y => ofFloat (x.toFloat / y.toFloat)⟩

/-- The double nearest to `m * 10 ^ e`, ties to the even pattern. -/
def nearest (m : Nat) (e : Int) : Double :=
  ofFloat (Float.ofScientific m (decide (e < 0)) e.natAbs)

/-- The double nearest to a natural number. -/
def ofNat (n : Nat) : Double := nearest n 0

end Double

end Binning
