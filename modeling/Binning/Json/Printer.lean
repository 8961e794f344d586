import Binning.Json.Basic

/-!
# Writing JSON

A value is written without any blanks (`Binning.Json.compact`) or with one element
or member on a line (`Binning.Json.pretty`). In strings only the quote, the
backslash and the control characters are escaped (`Binning.Json.escape`).
-/

namespace Binning

namespace Json

/-! ### Strings -/

/-- The character of a hexadecimal digit. -/
def hexChar (n : Nat) : Char := if n < 10 then Char.ofNat (48 + n) else Char.ofNat (87 + n)

/-- How a character is written in a string. -/
def escape (c : Char) : List Char :=
  match c with
  | '"' => ['\\', '"']
  | '\\' => ['\\', '\\']
  | '\x08' => ['\\', 'b']
  | '\x0c' => ['\\', 'f']
  | '\n' => ['\\', 'n']
  | '\r' => ['\\', 'r']
  | '\t' => ['\\', 't']
  | c =>
    if c.toNat < 0x20 then
      ['\\', 'u', '0', '0', hexChar (c.toNat / 16), hexChar (c.toNat % 16)]
    else [c]

/-- A string. One that names no text is written as half of a surrogate pair. -/
def stringChars : Option String → List Char
  | some s => '"' :: (s.toList.flatMap escape ++ ['"'])
  | none => ['"', '\\', 'u', 'd', '8', '0', '0', '"']

/-! ### Values without blanks -/

/-- The text of a truth value. -/
def boolChars (b : Bool) : List Char :=
  if b then ['t', 'r', 'u', 'e'] else ['f', 'a', 'l', 's', 'e']

mutual

/-- A value, without blanks. -/
def compactChars : Json → List Char
  | .null => ['n', 'u', 'l', 'l']
  | .bool b => boolChars b
  | .number n => n.chars
  | .string s => stringChars s
  | .array [] => ['[', ']']
  | .array (v :: vs) => '[' :: (compactChars v ++ compactElements vs)
  | .object [] => ['{', '}']
  | .object ((k, v) :: ms) =>
    '{' :: (stringChars k ++ ':' :: (compactChars v ++ compactMembers ms))

/-- The elements after the first one, up to the closing bracket. -/
def compactElements : List Json → List Char
  | [] => [']']
  | v :: vs => ',' :: (compactChars v ++ compactElements vs)

/-- The members after the first one, up to the closing brace. -/
def compactMembers : List (Option String × Json) → List Char
  | [] => ['}']
  | (k, v) :: ms => ',' :: (stringChars k ++ ':' :: (compactChars v ++ compactMembers ms))

end

/-- **The text of a value, without blanks.** -/
def compact (v : Json) : String := String.ofList v.compactChars

/-! ### Values on lines -/

/-- A line break and the indentation of the next line. -/
def lineBreak (depth : Nat) : List Char := '\n' :: List.replicate (2 * depth) ' '

mutual

/-- A value whose lines are indented to a depth. -/
def prettyChars (depth : Nat) : Json → List Char
  | .null => ['n', 'u', 'l', 'l']
  | .bool b => boolChars b
  | .number n => n.chars
  | .string s => stringChars s
  | .array [] => ['[', ']']
  | .array (v :: vs) =>
    '[' :: (lineBreak (depth + 1) ++ prettyChars (depth + 1) v ++ prettyElements depth vs)
  | .object [] => ['{', '}']
  | .object ((k, v) :: ms) =>
    '{' :: (lineBreak (depth + 1) ++ stringChars k ++ [':', ' '] ++ prettyChars (depth + 1) v ++
      prettyMembers depth ms)

/-- The elements after the first one, up to the closing bracket at a depth. -/
def prettyElements (depth : Nat) : List Json → List Char
  | [] => lineBreak depth ++ [']']
  | v :: vs =>
    ',' :: (lineBreak (depth + 1) ++ prettyChars (depth + 1) v ++ prettyElements depth vs)

/-- The members after the first one, up to the closing brace at a depth. -/
def prettyMembers (depth : Nat) : List (Option String × Json) → List Char
  | [] => lineBreak depth ++ ['}']
  | (k, v) :: ms =>
    ',' :: (lineBreak (depth + 1) ++ stringChars k ++ [':', ' '] ++ prettyChars (depth + 1) v ++
      prettyMembers depth ms)

end

/-- **The text of a value, one element or member on a line.** -/
def pretty (v : Json) : String := String.ofList (v.prettyChars 0)

end Json

end Binning
