import Binning.Node.Append
import Binning.Node.Contiguity
import Binning.Node.Flatten

/-!
# Cut sets

A cut set (`Binning.CutSet`) holds one rebinning tree for each dimension. The
trees are independent: a cut set is validated, flattened and described dimension
by dimension.

* `Binning.CutSet.validate` – every dimension is contiguous. All are checked, so
  that each fault is reported;
* `Binning.CutSet.flattenedEdges` – the edges of every dimension;
* `Binning.CutSet.describe` – the description of every dimension.
-/

namespace Binning

/-- One tree for each dimension. -/
structure CutSet (β : Type) where
  trees : List (Node β)

namespace CutSet

variable {β : Type}

/-- The cut set without dimensions. -/
def empty : CutSet β := ⟨[]⟩

/-- The number of dimensions. -/
def size (c : CutSet β) : Nat := c.trees.length

/-- The cut set with one more dimension. -/
def add (c : CutSet β) (tree : Node β) : CutSet β := ⟨c.trees ++ [tree]⟩

/-- The tree of a dimension, if there is one. -/
def get? (c : CutSet β) (index : Nat) : Option (Node β) := c.trees[index]?

/-- The tree of a dimension, which must exist. -/
def tree (c : CutSet β) (index : Nat) : Outcome (Node β) :=
  match c.trees[index]? with
  | some t => .ok t
  | none => .error (.outOfRange c.size index)

/-- The cut set with another tree for a dimension. -/
def set (c : CutSet β) (index : Nat) (tree : Node β) : CutSet β := ⟨c.trees.set index tree⟩

variable [BaseAxis β]

/-- The warning about a dimension that is not contiguous. -/
def dimensionEvent (index : Nat) : Event where
  level := .warn
  message := "Dimension failed contiguity validation"
  fields := [("dim", toString index)]

/-- The trees of the dimensions from `index` on are contiguous. -/
def validateFrom : Nat → List (Node β) → Run Bool
  | _, [] => return true
  | index, t :: ts => do
    let valid ← t.validateContiguity
    if !valid then Run.emit (dimensionEvent index)
    let rest ← validateFrom (index + 1) ts
    return valid && rest

/-- **Every dimension is contiguous.** -/
def validate (c : CutSet β) : Run Bool := validateFrom 0 c.trees

/-- The edges of every dimension. -/
def flattenedEdges (c : CutSet β) : Outcome (List (List Double)) :=
  c.trees.mapM Node.flattenedEdges

/-- The lines that describe the dimensions from `index` on. -/
def linesFrom (o : DescribeOptions) : Nat → List (Node β) → Outcome (List Line)
  | _, [] => .ok []
  | index, t :: ts => do
    let here ← t.lines o (o.indent + 1)
    let rest ← linesFrom o (index + 1) ts
    return ⟨o.indent, "Dimension " ++ toString index ++ ":"⟩ :: (here ++ rest)

/-- **The description of every dimension**, each under a heading. -/
def describe (c : CutSet β) (o : DescribeOptions) : Outcome String := do
  Line.makeRoom o.indent
  let ls ← linesFrom o 0 c.trees
  return Line.render ls

end CutSet

end Binning
