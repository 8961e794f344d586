import Binning.Text.Unprinted

/-!
# Quoted text

Messages show a foreign string in double quotes (`Binning.Text.quoted`). A quote
or a backslash inside is escaped, four control characters have escapes of their
own, and every other character that cannot be shown is given by its code point
(`Binning.Text.escape`).
-/

namespace Binning

namespace Text

/-- The hexadecimal digits of a number, in lower case. -/
def hex (n : Nat) : List Char := Nat.toDigits 16 n

/-- How a character is shown inside quotes. -/
def escape (c : Char) : List Char :=
  match c with
  | '\x00' => ['\\', '0']
  | '\t' => ['\\', 't']
  | '\r' => ['\\', 'r']
  | '\n' => ['\\', 'n']
  | '"' => ['\\', '"']
  | '\\' => ['\\', '\\']
  | c => if isUnprinted c then ['\\', 'u', '\x7b'] ++ hex c.toNat ++ ['\x7d'] else [c]

/-- A string in quotes. -/
def quoted (s : String) : String :=
  String.ofList ('"' :: (s.toList.flatMap escape ++ ['"']))

end Text

end Binning
