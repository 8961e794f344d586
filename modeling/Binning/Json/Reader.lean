import Binning.Json.Basic

/-!
# Reading JSON

`Binning.Json.parse` reads a text as one JSON value with nothing but blanks around
it. Reading follows the grammar and decides nothing else: numbers stay numerals,
and a string whose escapes name no text is read as such.

Each function reads from the front of a list of characters and returns what is
left. Values are read with a bound on the number of nested calls, which
`Binning.Json.parse` takes from the length of the text: every second call uses up
a character.
-/

namespace Binning

namespace Json

/-! ### Blanks and numbers -/

/-- The character may stand between the parts of a value. -/
def isBlank (c : Char) : Bool := c == ' ' || c == '\n' || c == '\t' || c == '\r'

/-- What is left after blanks. -/
def skipBlanks (cs : List Char) : List Char := cs.dropWhile isBlank

/-- The digits in front. -/
def readDigits : List Char → List Digit × List Char
  | [] => ([], [])
  | c :: cs =>
    match Digit.ofChar? c with
    | some d =>
      let (ds, rest) := readDigits cs
      (d :: ds, rest)
    | none => ([], c :: cs)

/-- Whole digits: at least one, and no zero before another. -/
def readWhole (cs : List Char) : Option (List Digit × List Char) :=
  match readDigits cs with
  | ([], _) => none
  | ([d], rest) => some ([d], rest)
  | (d :: ds, rest) => if d.val = 0 then none else some (d :: ds, rest)

/-- A fraction, if there is a point: then at least one digit. -/
def readFraction : List Char → Option (List Digit × List Char)
  | '.' :: cs =>
    match readDigits cs with
    | ([], _) => none
    | (ds, rest) => some (ds, rest)
  | cs => some ([], cs)

/-- An optional sign. -/
def readSign : List Char → Option Sign × List Char
  | '+' :: cs => (some .plus, cs)
  | '-' :: cs => (some .minus, cs)
  | cs => (none, cs)

/-- An exponent, if there is its mark: then at least one digit. -/
def readExponent : List Char → Option (Option Exponent × List Char)
  | c :: cs =>
    if c = 'e' ∨ c = 'E' then
      let (sign, cs) := readSign cs
      match readDigits cs with
      | ([], _) => none
      | (ds, rest) => some (some ⟨sign, ds⟩, rest)
    else some (none, c :: cs)
  | [] => some (none, [])

/-- An optional minus sign. -/
def readMinus : List Char → Bool × List Char
  | '-' :: cs => (true, cs)
  | cs => (false, cs)

/-- A number. -/
def readNumeral (cs : List Char) : Option (Numeral × List Char) := do
  let (negative, cs) := readMinus cs
  let (whole, cs) ← readWhole cs
  let (fraction, cs) ← readFraction cs
  let (exponent, cs) ← readExponent cs
  return (⟨negative, whole, fraction, exponent⟩, cs)

/-! ### Strings -/

/-- A part of a string: a character, or a 16-bit unit given by its number. -/
inductive Piece where
  | char (c : Char)
  | unit (n : Nat)
  deriving DecidableEq

/-- The value of a hexadecimal digit. -/
def hexValue? (c : Char) : Option Nat :=
  let n := c.toNat
  if 48 ≤ n ∧ n < 58 then some (n - 48)
  else if 97 ≤ n ∧ n < 103 then some (n - 87)
  else if 65 ≤ n ∧ n < 71 then some (n - 55)
  else none

/-- The unit that four hexadecimal digits write. -/
def unitOf? (a b c d : Char) : Option Nat := do
  let a ← hexValue? a
  let b ← hexValue? b
  let c ← hexValue? c
  let d ← hexValue? d
  return ((a * 16 + b) * 16 + c) * 16 + d

/-- The character that a letter after a backslash stands for. -/
def escaped? (c : Char) : Option Char :=
  match c with
  | '"' => some '"'
  | '\\' => some '\\'
  | '/' => some '/'
  | 'b' => some '\x08'
  | 'f' => some '\x0c'
  | 'n' => some '\n'
  | 'r' => some '\r'
  | 't' => some '\t'
  | _ => none

/-- The pieces of a string, after its opening quote and up to its closing one. -/
def readPieces : List Char → Option (List Piece × List Char)
  | [] => none
  | '"' :: cs => some ([], cs)
  | '\\' :: cs =>
    match cs with
    | 'u' :: a :: b :: c :: d :: cs => do
      let n ← unitOf? a b c d
      let (ps, rest) ← readPieces cs
      return (.unit n :: ps, rest)
    | e :: cs => do
      let c ← escaped? e
      let (ps, rest) ← readPieces cs
      return (.char c :: ps, rest)
    | [] => none
  | c :: cs =>
    if c.toNat < 0x20 then none
    else do
      let (ps, rest) ← readPieces cs
      return (.char c :: ps, rest)

/-- The text that pieces name. Two units that are a surrogate pair name one
character; one half of a pair names none. -/
def textOfPieces : List Piece → Option (List Char)
  | [] => some []
  | .char c :: ps => (textOfPieces ps).map (c :: ·)
  | .unit n :: ps =>
    if 0xD800 ≤ n ∧ n < 0xDC00 then
      match ps with
      | .unit m :: ps =>
        if 0xDC00 ≤ m ∧ m < 0xE000 then
          (textOfPieces ps).map
            (Char.ofNat (0x10000 + (n - 0xD800) * 0x400 + (m - 0xDC00)) :: ·)
        else none
      | _ => none
    else if 0xDC00 ≤ n ∧ n < 0xE000 then none
    else (textOfPieces ps).map (Char.ofNat n :: ·)

/-- A string, after its opening quote. -/
def readString (cs : List Char) : Option (Option String × List Char) := do
  let (ps, rest) ← readPieces cs
  return ((textOfPieces ps).map String.ofList, rest)

/-! ### Values -/

mutual

/-- A value. -/
def readValue : Nat → List Char → Option (Json × List Char)
  | 0, _ => none
  | fuel + 1, cs =>
    match skipBlanks cs with
    | 'n' :: 'u' :: 'l' :: 'l' :: rest => some (.null, rest)
    | 't' :: 'r' :: 'u' :: 'e' :: rest => some (.bool true, rest)
    | 'f' :: 'a' :: 'l' :: 's' :: 'e' :: rest => some (.bool false, rest)
    | '"' :: rest => (readString rest).map fun s => (.string s.1, s.2)
    | '[' :: rest =>
      match skipBlanks rest with
      | ']' :: rest => some (.array [], rest)
      | rest => (readElements fuel rest).map fun vs => (.array vs.1, vs.2)
    | '{' :: rest =>
      match skipBlanks rest with
      | '}' :: rest => some (.object [], rest)
      | rest => (readMembers fuel rest).map fun ms => (.object ms.1, ms.2)
    | rest => (readNumeral rest).map fun n => (.number n.1, n.2)

/-- One or more elements, up to the closing bracket. -/
def readElements : Nat → List Char → Option (List Json × List Char)
  | 0, _ => none
  | fuel + 1, cs => do
    let (v, rest) ← readValue fuel cs
    match skipBlanks rest with
    | ',' :: rest => (readElements fuel rest).map fun vs => (v :: vs.1, vs.2)
    | ']' :: rest => some ([v], rest)
    | _ => none

/-- One or more members, up to the closing brace. -/
def readMembers : Nat → List Char → Option (List (Option String × Json) × List Char)
  | 0, _ => none
  | fuel + 1, cs =>
    match skipBlanks cs with
    | '"' :: rest => do
      let (k, rest) ← readString rest
      match skipBlanks rest with
      | ':' :: rest => do
        let (v, rest) ← readValue fuel rest
        match skipBlanks rest with
        | ',' :: rest => (readMembers fuel rest).map fun ms => ((k, v) :: ms.1, ms.2)
        | '}' :: rest => some ([(k, v)], rest)
        | _ => none
      | _ => none
    | _ => none

end

/-- A value with nothing but blanks around it. -/
def parseChars (cs : List Char) : Option Json :=
  match readValue (2 * cs.length + 2) cs with
  | some (v, rest) => if (skipBlanks rest).isEmpty then some v else none
  | none => none

/-- **The value that a text writes**, if it is JSON. -/
def parse (s : String) : Option Json := parseChars s.toList

end Json

end Binning
