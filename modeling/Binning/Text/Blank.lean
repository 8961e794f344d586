/-!
# Blank characters

The characters with the property *White_Space*: twenty-five code points, of which
only six are ASCII (`Binning.Text.isBlank`).
-/

namespace Binning

namespace Text

/-- The code points of the blank characters, as ranges. -/
def blanks : List (Nat × Nat) := [
  (0x0009, 0x000D), (0x0020, 0x0020), (0x0085, 0x0085), (0x00A0, 0x00A0), (0x1680, 0x1680),
  (0x2000, 0x200A), (0x2028, 0x2029), (0x202F, 0x202F), (0x205F, 0x205F), (0x3000, 0x3000)]

/-- The character is blank. -/
def isBlank (c : Char) : Bool :=
  blanks.any fun r => decide (r.1 ≤ c.toNat ∧ c.toNat ≤ r.2)

end Text

end Binning
