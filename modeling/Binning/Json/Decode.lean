import Binning.Json.Reader

/-!
# Reading values of a type

Decoders turn a JSON value into a value of a type, or say what is wrong with it
(`Binning.Decoder`). A decoder works from left to right, and the first fault is
the one that counts. It looks at a string or a number no further than its place
requires; one that turns out to name no text, or no double, is malformed.

A **record** may be written as an object or as the sequence of its fields. The
functions here serve both: `Binning.Json.setOnce` puts a member into a field that
must be empty, and `Binning.Json.require` takes a field that must be full.
-/

namespace Binning

/-- A reading of JSON values. -/
abbrev Decoder (α : Type) := Json → Except ReadError α

namespace Json

/-! ### What stands at a place -/

/-- The integers that are told apart from doubles: signed or unsigned 64-bit numbers. -/
def isInteger (n : Int) : Bool := decide (-0x8000000000000000 ≤ n ∧ n < 0x10000000000000000)

/-- The integer that a numeral writes, if it is told apart from doubles. -/
def integer? (n : Numeral) : Option Int := n.toInt?.filter isInteger

/-- The value of a numeral, as an error shows it. -/
def foundNumber (n : Numeral) : Except ReadError Found :=
  match integer? n with
  | some i => .ok (.integer i)
  | none =>
    match Double.ofNumeral? n with
    | some x => .ok (.real x)
    | none => .error .malformed

/-- The value at a place, as an error shows it. -/
def found : Json → Except ReadError Found
  | .null => .ok .null
  | .bool b => .ok (.boolean b)
  | .number n => foundNumber n
  | .string (some s) => .ok (.string s)
  | .string none => .error .malformed
  | .array _ => .ok .sequence
  | .object _ => .ok .map

/-- The error about a value of the wrong type. -/
def wrongType {α : Type} (wanted : Wanted) (v : Json) : Except ReadError α := do
  let f ← v.found
  throw (.invalidType f wanted)

/-! ### Scalars, options and sequences -/

/-- A string. -/
def decodeString : Decoder String
  | .string (some s) => .ok s
  | v => wrongType .string v

/-- A double. Integers are doubles too. -/
def decodeDouble : Decoder Double
  | .number n =>
    match Double.ofNumeral? n with
    | some x => .ok x
    | none => .error .malformed
  | v => wrongType .real v

/-- An integer in range. -/
def decodeIntegerIn (inRange : Int → Bool) (wanted : Wanted) : Decoder Int
  | .number n =>
    match integer? n with
    | some i => if inRange i then .ok i else .error (.invalidValue i wanted)
    | none => wrongType wanted (.number n)
  | v => wrongType wanted v

/-- A signed 64-bit integer. -/
def decodeSigned : Decoder Int := decodeIntegerIn (fun i => decide (i < 0x8000000000000000)) .signed

/-- An unsigned 64-bit integer. -/
def decodeUnsigned : Decoder Nat := fun v =>
  (decodeIntegerIn (fun i => decide (0 ≤ i)) .unsigned v).map Int.toNat

/-- An optional value; `null` is none. -/
def decodeOption {α : Type} (d : Decoder α) : Decoder (Option α)
  | .null => .ok none
  | v => (d v).map some

/-- The values of a list. -/
def decodeElements {α : Type} (d : Decoder α) : List Json → Except ReadError (List α)
  | [] => .ok []
  | v :: vs => do
    let a ← d v
    let as ← decodeElements d vs
    return a :: as

/-- A sequence. -/
def decodeList {α : Type} (d : Decoder α) : Decoder (List α)
  | .array vs => decodeElements d vs
  | v => wrongType .sequence v

/-! ### Fields -/

/-- The field with a member put into it. It must be empty. -/
def setOnce {α : Type} (name : String) (d : Decoder α) (field : Option α) (v : Json) :
    Except ReadError (Option α) :=
  match field with
  | some _ => .error (.duplicateField name)
  | none => (d v).map some

/-- The value of a field, which must be full. -/
def require {α : Type} (name : String) : Option α → Except ReadError α
  | some a => .ok a
  | none => .error (.missingField name)

/-- The members of an object, put one after the other into the fields they name. -/
def decodeMembers {σ : Type} (put : σ → String → Json → Except ReadError σ) :
    σ → List (Option String × Json) → Except ReadError σ
  | s, [] => .ok s
  | s, (some k, v) :: ms => do
    let s ← put s k v
    decodeMembers put s ms
  | _, (none, _) :: _ => .error .malformed

/-- The element of a sequence of fields that must be there: field number `index` of
the record that `wanted` names. -/
def takeField {α : Type} (index : Nat) (wanted : String) (d : Decoder α) :
    List Json → Except ReadError (α × List Json)
  | v :: vs => (d v).map (·, vs)
  | [] => .error (.invalidLength index wanted)

/-- The element of a sequence of fields that may be missing at its end. -/
def takeDefault {α : Type} (default : α) (d : Decoder α) :
    List Json → Except ReadError (α × List Json)
  | v :: vs => (d v).map (·, vs)
  | [] => .ok (default, [])

/-- Nothing may follow the fields. -/
def noMore : List Json → Except ReadError Unit
  | [] => .ok ()
  | _ :: _ => .error .trailing

/-- A text as a value of a type. If the text cannot be read, the reason is only as
good as the text: one that is not sound as a whole is malformed. -/
def readText {α : Type} (d : Decoder α) (s : String) : Except ReadError α :=
  match parse s with
  | none => .error .malformed
  | some v =>
    match d v with
    | .ok a => .ok a
    | .error e => .error (if v.sound 0 then e else .malformed)

end Json

end Binning
