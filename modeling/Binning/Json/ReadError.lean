import Binning.Axis.Error
import Binning.Text.Quoted

/-!
# Why a JSON text cannot be read

A text that is not JSON at all is `Binning.ReadError.malformed`. Every other
error is about a value that is not what its place asks for, and names both
(`Binning.Found`, `Binning.Wanted`).
-/

namespace Binning

/-- In JSON, numbers from `10 ^ -5` up to `10 ^ 16` are written positionally, with
a point; the exponents of the others always have a sign. -/
def Layout.json : Layout where
  lowestPlain := some (-5)
  highestPlain := some 15
  pointZero := true
  positiveExponent := some .plus
  tie := .even

/-- The value that stands where another was wanted. -/
inductive Found where
  | null
  | boolean (b : Bool)
  | integer (n : Int)
  | real (x : Double)
  | string (s : String)
  | sequence
  | map
  deriving DecidableEq

/-- The text that shows a value. -/
def Found.text : Found → String
  | .null => "null"
  | .boolean b => "boolean `" ++ (if b then "true" else "false") ++ "`"
  | .integer n => "integer `" ++ toString n ++ "`"
  | .real x => "floating point `" ++ Layout.json.text x ++ "`"
  | .string s => "string " ++ Text.quoted s
  | .sequence => "sequence"
  | .map => "map"

/-- What a place asks for. -/
inductive Wanted where
  | string
  | sequence
  | real
  /-- An integer from `-2 ^ 63` to `2 ^ 63 - 1`. -/
  | signed
  /-- An integer from `0` to `2 ^ 64 - 1`. -/
  | unsigned
  /-- The name of a kind of axis. -/
  | kind
  /-- An axis with its kind. -/
  | axis
  /-- A record, by its name. -/
  | record (name : String)
  deriving DecidableEq

/-- The text that names what a place asks for. -/
def Wanted.text : Wanted → String
  | .string => "a string"
  | .sequence => "a sequence"
  | .real => "f64"
  | .signed => "i64"
  | .unsigned => "usize"
  | .kind => "variant identifier"
  | .axis => "internally tagged enum AxisConfig"
  | .record name => "struct " ++ name

/-- Why a JSON text cannot be read. -/
inductive ReadError where
  /-- The text is not JSON. -/
  | malformed
  /-- A member that must be there is not. -/
  | missingField (name : String)
  /-- A member is given twice. -/
  | duplicateField (name : String)
  /-- A value of the wrong type. -/
  | invalidType (found : Found) (wanted : Wanted)
  /-- An integer out of range. -/
  | invalidValue (found : Int) (wanted : Wanted)
  /-- A kind of axis that does not exist. -/
  | unknownKind (name : String)
  /-- A sequence with too few or too many elements. -/
  | invalidLength (length : Nat) (wanted : String)
  /-- A sequence of fields goes on after the last field. -/
  | trailing
  /-- The values can be read, but they do not make an axis. -/
  | invalidAxis (cause : AxisError)
  deriving DecidableEq

/-- The text of a reading error. -/
def ReadError.message : ReadError → String
  | .malformed => "malformed text"
  | .missingField name => "missing field `" ++ name ++ "`"
  | .duplicateField name => "duplicate field `" ++ name ++ "`"
  | .invalidType found wanted => "invalid type: " ++ found.text ++ ", expected " ++ wanted.text
  | .invalidValue found wanted =>
    "invalid value: integer `" ++ toString found ++ "`, expected " ++ wanted.text
  | .unknownKind name => "unknown variant `" ++ name ++ "`, expected `uniform` or `edges`"
  | .invalidLength length wanted =>
    "invalid length " ++ toString length ++ ", expected " ++ wanted
  | .trailing => "trailing characters"
  | .invalidAxis cause => cause.message

end Binning
