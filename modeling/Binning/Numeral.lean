/-!
# Decimal numerals

A numeral is a number as it is *written*: a sign, whole digits, perhaps a
fraction, perhaps an exponent. Numbers are read into numerals and written
through them, so that no digit of a text is lost before it is known what the
number is to be.

* `Binning.Numeral.chars` – the text of a numeral;
* `Binning.Numeral.ofInt` – the numeral of an integer;
* `Binning.Numeral.toInt?` – the integer a numeral writes, if it writes one. The
  numeral `-0` does not: it is the negative zero of the doubles.
-/

namespace Binning

/-- A decimal digit. -/
abbrev Digit := Fin 10

namespace Digit

/-- The character of a digit. -/
def char (d : Digit) : Char := Char.ofNat (48 + d.val)

/-- The digit a character writes. -/
def ofChar? (c : Char) : Option Digit :=
  if h : 48 ≤ c.toNat ∧ c.toNat < 58 then some ⟨c.toNat - 48, by omega⟩ else none

/-- The digits of `n` before the digits `acc`, at most `fuel` of them. -/
def prepend : Nat → Nat → List Digit → List Digit
  | 0, _, acc => acc
  | fuel + 1, n, acc =>
    let d : Digit := ⟨n % 10, Nat.mod_lt _ (by decide)⟩
    if n < 10 then d :: acc else prepend fuel (n / 10) (d :: acc)

/-- The decimal digits of a natural number, the leading one first. A number has
fewer digits than its successor counts, so the bound is never reached. -/
def listOf (n : Nat) : List Digit := prepend (n + 1) n []

/-- The number a list of digits writes. -/
def value (ds : List Digit) : Nat := ds.foldl (fun n d => n * 10 + d.val) 0

end Digit

/-- An explicit sign. -/
inductive Sign where
  | plus
  | minus
  deriving DecidableEq, Repr

/-- The exponent of a numeral: a power of ten, with its sign as it is written. -/
structure Exponent where
  /-- The sign, where one is written. -/
  sign : Option Sign
  /-- The digits of the exponent. -/
  digits : List Digit
  deriving DecidableEq, Repr

/-- A decimal number as it is written. -/
structure Numeral where
  /-- A minus sign stands in front. -/
  negative : Bool
  /-- The digits before the point. -/
  whole : List Digit
  /-- The digits after the point; there is no point without any. -/
  fraction : List Digit
  /-- The exponent, where one is written. -/
  exponent : Option Exponent
  deriving DecidableEq, Repr

namespace Exponent

/-- The power of ten an exponent stands for. -/
def value (e : Exponent) : Int :=
  if e.sign = some .minus then -(Digit.value e.digits : Int) else Digit.value e.digits

/-- The text of an exponent, with its mark. -/
def chars (e : Exponent) : List Char :=
  let sign := match e.sign with
    | none => []
    | some .plus => ['+']
    | some .minus => ['-']
  'e' :: (sign ++ e.digits.map Digit.char)

end Exponent

namespace Numeral

/-- The text of a numeral. -/
def chars (n : Numeral) : List Char :=
  (if n.negative then ['-'] else []) ++ n.whole.map Digit.char ++
    (if n.fraction.isEmpty then [] else '.' :: n.fraction.map Digit.char) ++
    (match n.exponent with
      | none => []
      | some e => e.chars)

/-- The text of a numeral, as a string. -/
def text (n : Numeral) : String := String.ofList n.chars

/-- The numeral of an integer. -/
def ofInt (n : Int) : Numeral := ⟨decide (n < 0), Digit.listOf n.natAbs, [], none⟩

/-- The integer a numeral writes. A fraction, an exponent or a minus sign before
zero makes it no integer. -/
def toInt? (n : Numeral) : Option Int :=
  if n.fraction.isEmpty && n.exponent.isNone then
    let v := Digit.value n.whole
    if n.negative then
      if v = 0 then none else some (-(v : Int))
    else some v
  else none

end Numeral

end Binning
