import Binning.Run

/-!
# What a list and a text can hold

The address space bounds what can be kept: a list of doubles takes eight bytes for
each entry (`Binning.Capacity.maxEntries`), a text one byte for each of its ASCII
characters (`Binning.Capacity.maxChars`), and neither may take more than
`2 ^ 63 - 1` bytes.

Room is made before it is filled: `Binning.Capacity.forEntries` and
`Binning.Capacity.forChars` fail if there can be none, whatever would have been
put there. This is a failure of its own, and no overflow.
-/

namespace Binning

namespace Capacity

/-- The largest number of entries in a list of doubles: `2 ^ 60 - 1`. -/
def maxEntries : Nat := 0xFFFFFFFFFFFFFFF

/-- The largest number of ASCII characters in a text: `2 ^ 63 - 1`. -/
def maxChars : Nat := 0x7FFFFFFFFFFFFFFF

/-- Room for `n` doubles. -/
def forEntries (n : Nat) : Outcome Unit := if n ≤ maxEntries then .ok () else .error .tooLarge

/-- Room for `n` ASCII characters. -/
def forChars (n : Nat) : Outcome Unit := if n ≤ maxChars then .ok () else .error .tooLarge

end Capacity

end Binning
