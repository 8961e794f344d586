import Binning.Double.Reading
import Binning.Json.ReadError

/-!
# JSON values

A JSON value (`Binning.Json`) keeps what its text says: numbers are numerals,
members are in the order of the text and may repeat a name, and a string may fail
to name a text at all, if one of its escapes is half of a surrogate pair.

A text of the right grammar need not be acceptable as a whole.
`Binning.Json.sound` asks for more: every string names a text, every number is in
the range of doubles, and values are not nested too deeply.
-/

namespace Binning

/-- A JSON value. -/
inductive Json where
  | null
  | bool (b : Bool)
  | number (n : Numeral)
  /-- A string; `none` if it names no text. -/
  | string (text : Option String)
  | array (elements : List Json)
  /-- The members in the order of the text. -/
  | object (members : List (Option String × Json))
  deriving Inhabited

namespace Json

/-! ### Making values -/

/-- A string that names a text. -/
def text (s : String) : Json := .string (some s)

/-- An integer. -/
def int (n : Int) : Json := .number (Numeral.ofInt n)

/-- A double; JSON has no numbers for NaN and the infinities. -/
def double (x : Double) : Json := if x.isFinite then .number (Layout.json.numeral x) else .null

/-- An optional value. -/
def option {α : Type} (f : α → Json) : Option α → Json
  | none => .null
  | some a => f a

/-- A sequence of values. -/
def list {α : Type} (f : α → Json) (as : List α) : Json := .array (as.map f)

/-- An object with named members. -/
def record (members : List (String × Json)) : Json :=
  .object (members.map fun m => (some m.1, m.2))

/-! ### Depth and soundness -/

mutual

/-- The number of values nested in each other, not counting scalars. -/
def depth : Json → Nat
  | .array elements => depthOfElements elements + 1
  | .object members => depthOfMembers members + 1
  | _ => 0

/-- The depth of the deepest element. -/
def depthOfElements : List Json → Nat
  | [] => 0
  | v :: vs => max (depth v) (depthOfElements vs)

/-- The depth of the deepest member. -/
def depthOfMembers : List (Option String × Json) → Nat
  | [] => 0
  | (_, v) :: ms => max (depth v) (depthOfMembers ms)

end

mutual

/-- Every string names a text and every number is a double. -/
def definite : Json → Bool
  | .number n => (Double.ofNumeral? n).isSome
  | .string s => s.isSome
  | .array elements => definiteElements elements
  | .object members => definiteMembers members
  | _ => true

/-- Every element is definite. -/
def definiteElements : List Json → Bool
  | [] => true
  | v :: vs => definite v && definiteElements vs

/-- Every member has a name and is definite. -/
def definiteMembers : List (Option String × Json) → Bool
  | [] => true
  | (k, v) :: ms => k.isSome && definite v && definiteMembers ms

end

/-- The largest number of values nested in each other. -/
def maxDepth : Nat := 127

/-- The value is acceptable inside `above` others. -/
def sound (above : Nat) (v : Json) : Bool := v.definite && decide (v.depth + above ≤ maxDepth)

end Json

end Binning
