import Binning.DescribeOptions
import Binning.Node.Basic

/-!
# Describing a tree

A description is a list of lines, each with a depth of indentation
(`Binning.Line`). A node is described by its base axis, its grouping, perhaps
every grouped bin of its local range, and its children two levels deeper
(`Binning.Node.lines`). `Binning.Node.describe` is the text of these lines.

A description can overflow: it shows base bins, which need not be in range. It can
also be too large: a line has no room if its indentation is longer than any text
(`Binning.Line.makeRoom`), and the grouped bins of a node have none if there are more
line breaks between them than characters in any text (`Binning.Node.binLines`).
-/

namespace Binning

/-- A line of a description. -/
structure Line where
  /-- The depth of indentation. -/
  depth : Nat
  text : String
  deriving DecidableEq, Repr

namespace Line

/-- A line as text: two spaces for each level, and a line break at the end. -/
def chars (l : Line) : List Char := List.replicate (2 * l.depth) ' ' ++ l.text.toList ++ ['\n']

/-- Lines as text. -/
def render (ls : List Line) : String := String.ofList (ls.flatMap chars)

/-- Room for the indentation of a line. -/
def makeRoom (depth : Nat) : Outcome Unit := Capacity.forChars (2 * depth)

end Line

/-- An interval of coordinates. -/
def intervalText (low high : Int) : String :=
  "[" ++ toString low ++ ", " ++ toString high ++ "]"

namespace Node

variable {β : Type} [BaseAxis β]

/-- The summary of a base axis. -/
def baseText (base : β) : String :=
  let n := BaseAxis.binCount base
  if n = 0 then "Base axis: 0 bins"
  else
    "Base axis: " ++ toString n ++ " bins [" ++ Layout.bound.text (BaseAxis.lowEdge base 1) ++
      ", " ++ Layout.bound.text (BaseAxis.upEdge base n) ++ "]"

/-- The summary of a grouping. -/
def groupingText (g : Grouping) : Outcome String := do
  let start ← g.start
  let stop ← g.stop
  return "AxisNode: group_size=" ++ toString g.size ++ " skip_offset=" ++ toString g.skip ++
    " range=" ++ intervalText g.low g.high ++ " base_range=" ++ intervalText start stop ++
    " grouped_bins=" ++ toString g.count

/-- A grouped bin: its base bins, its edges, and its label if it is a single bin. -/
def binText (base : β) (g : Grouping) (b : Int) : Outcome String := do
  let first ← g.firstBase b
  let last ← g.lastBase b
  let low := BaseAxis.lowEdge base (Coordinate.toBin first)
  let up := BaseAxis.upEdge base (Coordinate.toBin last)
  let label := if first = last then BaseAxis.label base (Coordinate.toBin first) else none
  return "[" ++ toString b ++ "] base " ++ toString first ++ ".." ++ toString last ++ ": [" ++
    Layout.bound.text low ++ ", " ++ Layout.bound.text up ++ ")" ++
    (match label with
      | some l => " \"" ++ l ++ "\""
      | none => "")

/-- The line of a grouped bin. -/
def binLine (base : β) (g : Grouping) (depth : Nat) (b : Int) : Outcome Line := do
  let text ← binText base g b
  return ⟨depth, text⟩

/-- The lines of the grouped bins of the local range. Once there is a first line,
room is made for the line breaks that part it from the others. -/
def binLines (base : β) (g : Grouping) (depth : Nat) : Outcome (List Line) :=
  match Coordinate.span g.low g.high with
  | 0 => .ok []
  | n + 1 => do
    let first ← binLine base g depth g.low
    Capacity.forChars n
    let rest ← Coordinate.listFrom (binLine base g depth) (g.low + 1) n
    return first :: rest

mutual

/-- **The lines that describe a node**, indented to a depth. -/
def lines (o : DescribeOptions) (depth : Nat) : Node β → Outcome (List Line)
  | ⟨base, g, children⟩ => do
    Line.makeRoom depth
    match base with
    | none => return [⟨depth, "AxisNode (no base axis)"⟩]
    | some base =>
      let summary : Line := ⟨depth, baseText base⟩
      if o.baseOnly then return [summary]
      else
        let grouping ← groupingText g
        let bins ← if o.ranges then binLines base g (depth + 1) else .ok []
        let below ← linesOfAll o (depth + 2) children
        let heading : List Line :=
          if children.isEmpty then []
          else [⟨depth + 1, "children (" ++ toString children.length ++ "):"⟩]
        return summary :: ⟨depth, grouping⟩ :: (bins ++ heading ++ below)

/-- The lines that describe the children of a node. -/
def linesOfAll (o : DescribeOptions) (depth : Nat) : List (Node β) → Outcome (List Line)
  | [] => .ok []
  | n :: ns => do
    let here ← lines o depth n
    let rest ← linesOfAll o depth ns
    return here ++ rest

end

/-- **The description of a tree.** -/
def describe (n : Node β) (o : DescribeOptions) : Outcome String := do
  let ls ← n.lines o o.indent
  return Line.render ls

end Node

end Binning
