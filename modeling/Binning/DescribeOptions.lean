import Binning.Error
import Binning.Text.Blank

/-!
# Options of a description

What a description of a tree shows (`Binning.DescribeOptions`), and the flag
strings that ask for it (`Binning.DescribeOptions.ofFlags`): words separated by
commas and blanks, in either case.

* `base` – only the base axis;
* `noranges` – not every grouped bin.
-/

namespace Binning

/-- What a description shows. -/
structure DescribeOptions where
  /-- Only the base axis of each node. -/
  baseOnly : Bool
  /-- Every grouped bin of each node. -/
  ranges : Bool
  /-- The depth of indentation of the first line. -/
  indent : Nat
  deriving DecidableEq, Repr

namespace DescribeOptions

/-- Everything, not indented. -/
def full : DescribeOptions := ⟨false, true, 0⟩

/-- Only the base axis of each node. -/
def onlyBase (o : DescribeOptions) : DescribeOptions := { o with baseOnly := true }

/-- Not every grouped bin. -/
def withoutRanges (o : DescribeOptions) : DescribeOptions := { o with ranges := false }

/-- Indented to a depth. -/
def withIndent (o : DescribeOptions) (depth : Nat) : DescribeOptions := { o with indent := depth }

/-! ### Flag strings -/

/-- The character separates flags. -/
def separates (c : Char) : Bool := c == ',' || Text.isBlank c

/-- The words of a flag string, where `word` is the beginning of the first one,
reversed. -/
def wordsFrom (word : List Char) : List Char → List (List Char)
  | [] => if word.isEmpty then [] else [word.reverse]
  | c :: rest =>
    if separates c then
      if word.isEmpty then wordsFrom [] rest else word.reverse :: wordsFrom [] rest
    else wordsFrom (c :: word) rest

/-- The words of a flag string: its longest runs of characters that do not
separate flags. -/
def words (s : List Char) : List (List Char) := wordsFrom [] s

/-- Options changed by a flag, if it exists. The case of ASCII letters is ignored. -/
def withFlag? (o : DescribeOptions) (flag : List Char) : Option DescribeOptions :=
  let lower := flag.map Char.toLower
  if lower = "base".toList then some o.onlyBase
  else if lower = "noranges".toList then some o.withoutRanges
  else none

/-- Options changed by flags, up to the first one that does not exist. -/
def applyAll (o : DescribeOptions) : List (List Char) → Except BinningError DescribeOptions
  | [] => .ok o
  | flag :: flags =>
    match o.withFlag? flag with
    | some p => applyAll p flags
    | none => .error (.unknownFlag (String.ofList flag))

/-- **The options that a flag string asks for.** -/
def ofFlags (s : String) : Except BinningError DescribeOptions := applyAll full (words s.toList)

end DescribeOptions

end Binning
