import Binning.Double.Basic

/-!
# The shortest decimal of a double

A finite double stands for the interval of real numbers that round to it. Among
the decimals in that interval, the ones with the fewest digits are its *shortest*
decimals, and of those the nearest to the double is written.

Everything is decided in exact integer arithmetic. A positive double is a natural
number times a power of two (`Binning.Dyadic`), a decimal is a natural number
times a power of ten (`Binning.Decimal`), and the two are compared by
cross-multiplication (`Binning.Dyadic.compare`). The search
(`Binning.Dyadic.shortest`) tries grids of decimals from one digit up to
seventeen, and on each grid only the two neighbours of the double: if any point
of a grid lies in the interval, one of these two does.

Two neighbours can be equally near. Which one is written is a decision of the
format and a parameter of the search (`Binning.Tie`).
-/

namespace Binning

/-- Which of two equally near decimals is written. -/
inductive Tie where
  /-- The one whose last digit is even. -/
  | even
  /-- The larger one. -/
  | up
  deriving DecidableEq, Repr

/-- A decimal `digits * 10 ^ exponent`. -/
structure Decimal where
  digits : Nat
  exponent : Int
  deriving DecidableEq, Repr

/-- A positive double as `mantissa * 2 ^ exponent`. -/
structure Dyadic where
  mantissa : Nat
  exponent : Int
  /-- The double below is half as far away as the double above: this one is a
  power of two. -/
  narrowBelow : Bool
  deriving DecidableEq, Repr

namespace Dyadic

/-- The leading bit of a mantissa, above its fraction: `2 ^ 52`. -/
def leadingBit : Nat := 0x10000000000000

/-- The dyadic of a positive finite double, from its magnitude. The exponent
field is all zero for the subnormal numbers, which lack the leading bit. -/
def ofMagnitude (b : Nat) : Dyadic :=
  let field : Nat := b / leadingBit
  let fraction : Nat := b % leadingBit
  if field = 0 then ⟨fraction, -1074, false⟩
  else ⟨leadingBit + fraction, (field : Int) - 1075, decide (fraction = 0 ∧ 1 < field)⟩

/-- How `digits * 10 ^ d` compares with `m * 2 ^ q`. -/
def compareScaled (digits : Nat) (d : Int) (m : Nat) (q : Int) : Ordering :=
  Ord.compare (digits * Nat.pow 10 d.toNat * Nat.pow 2 (-q).toNat)
    (m * Nat.pow 2 q.toNat * Nat.pow 10 (-d).toNat)

/-- How a decimal compares with a dyadic. -/
def compare (x : Dyadic) (d : Decimal) : Ordering :=
  compareScaled d.digits d.exponent x.mantissa x.exponent

/-- **The decimal reads back as the double**: it lies between the midpoints to the
neighbours of the double. The midpoints themselves round to the even mantissa. -/
def readsBack (x : Dyadic) (d : Decimal) : Bool :=
  let low := if x.narrowBelow then 4 * x.mantissa - 1 else 4 * x.mantissa - 2
  let high := 4 * x.mantissa + 2
  let closed := x.mantissa % 2 = 0
  let below := compareScaled d.digits d.exponent low (x.exponent - 2)
  let above := compareScaled d.digits d.exponent high (x.exponent - 2)
  (below = .gt || (closed && below = .eq)) && (above = .lt || (closed && above = .eq))

/-- The largest multiple of `10 ^ e` up to the double, divided by `10 ^ e`. -/
def floorOnGrid (x : Dyadic) (e : Int) : Nat :=
  (x.mantissa * Nat.pow 2 x.exponent.toNat * Nat.pow 10 (-e).toNat) /
    (Nat.pow 2 (-x.exponent).toNat * Nat.pow 10 e.toNat)

/-- The least `k` with the double below `10 ^ k`. The binary logarithm times
`log 2` is at most two short of it. -/
def scale (x : Dyadic) : Int :=
  let guess := ((x.mantissa.log2 : Int) + x.exponent) * 30103 / 100000
  if compare x ⟨1, guess⟩ = .gt then guess
  else if compare x ⟨1, guess + 1⟩ = .gt then guess + 1
  else guess + 2

/-- The decimal on the grid of `10 ^ e` that is nearest to the double, among
those that read back. -/
def onGrid (x : Dyadic) (tie : Tie) (e : Int) : Option Decimal :=
  let low := x.floorOnGrid e
  let below : Decimal := ⟨low, e⟩
  let above : Decimal := ⟨low + 1, e⟩
  match x.readsBack below, x.readsBack above with
  | false, false => none
  | true, false => some below
  | false, true => some above
  | true, true =>
    -- the midpoint of the two, compared with the double
    match compareScaled (2 * low + 1) e x.mantissa (x.exponent + 1) with
    | .gt => some below
    | .lt => some above
    | .eq =>
      match tie with
      | .up => some above
      | .even => if low % 2 = 0 then some below else some above

/-- The first hit on the grids of `n`, `n + 1`, … significant digits. -/
def search (x : Dyadic) (tie : Tie) (scale : Int) : Nat → Nat → Option Decimal
  | 0, _ => none
  | fuel + 1, n =>
    match x.onGrid tie (scale - n) with
    | some d => some d
    | none => search x tie scale fuel (n + 1)

/-- The double itself as a decimal, with all its digits. -/
def exact (x : Dyadic) : Decimal :=
  ⟨x.mantissa * Nat.pow 2 x.exponent.toNat * Nat.pow 5 (-x.exponent).toNat, min x.exponent 0⟩

end Dyadic

/-- The decimal without trailing zeros in its digits, removing at most `fuel`. -/
def Decimal.strip : Nat → Decimal → Decimal
  | 0, d => d
  | fuel + 1, d =>
    if d.digits ≠ 0 ∧ d.digits % 10 = 0 then strip fuel ⟨d.digits / 10, d.exponent + 1⟩ else d

/-- **The shortest decimal of a positive double**, without trailing zeros. -/
def Dyadic.shortest (x : Dyadic) (tie : Tie) : Decimal :=
  let found := (x.search tie x.scale 17 1).getD x.exact
  found.strip (found.digits.log2 + 1)

end Binning
