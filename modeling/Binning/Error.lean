import Binning.Json.ReadError

/-!
# Errors

The reasons for which a binning is refused (`Binning.BinningError`), each with
its text (`Binning.BinningError.message`).
-/

namespace Binning

/-- Why a binning is refused. -/
inductive BinningError where
  /-- A group has at least one bin. -/
  | invalidGroupSize (size : Int)
  /-- The node has no base axis whose bins it could group. -/
  | missingBaseAxis
  /-- A child ends beyond its parent. -/
  | containment (childEnd parentEnd : Int)
  /-- The parts of an axis do not make an axis. -/
  | axis (cause : AxisError)
  /-- A describe flag that does not exist, as it was spelled. -/
  | unknownFlag (flag : String)
  /-- There is not one base axis for each dimension. -/
  | dimensionCount (expected actual : Nat)
  /-- The text of a configuration cannot be read. -/
  | unreadable (cause : ReadError)
  deriving DecidableEq

/-- The text of an error. -/
def BinningError.message : BinningError → String
  | .invalidGroupSize size => "Group size must be at least 1, got " ++ toString size
  | .missingBaseAxis => "Axis node has no base axis configured"
  | .containment childEnd parentEnd =>
    "Child range ends at base bin " ++ toString childEnd ++
      ", beyond parent range ending at base bin " ++ toString parentEnd
  | .axis cause => cause.message
  | .unknownFlag flag => "Unknown describe flag: " ++ flag
  | .dimensionCount expected actual =>
    "Expected " ++ toString expected ++ " base axes, got " ++ toString actual
  | .unreadable cause => "Invalid binning configuration: " ++ cause.message

end Binning
