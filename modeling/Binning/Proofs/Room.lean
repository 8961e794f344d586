import Binning.CutSet
import Binning.Proofs.Contiguity
import Binning.Proofs.Moderate

/-!
# Room for a description

A description shows base bins, which can overflow. Apart from that it is known, if there is room
for it: for the line breaks between the grouped bins of a node, and for the indentation of the
innermost node, which is `Binning.Node.descent` levels deeper than the first line. Nothing else can
keep a description from being made (`Binning.Node.knownUnless_describe`,
`Binning.CutSet.knownUnless_describe`), and without that room there is none
(`Binning.Node.room_of_lines`).

Room for the indentation can be missing only where a node is nested more levels deep than half the
characters of the longest text (`Binning.Node.TooDeep`).
-/

namespace Binning

open Outcome

namespace Outcome

variable {α β : Type} {full : Prop}

/-- **Known, or else an overflow**, or a lack of room if this can be. -/
def KnownUnless (full : Prop) (o : Outcome α) : Prop :=
  Known o ∨ o = .error .overflow ∨ (o = .error .tooLarge ∧ full)

theorem Gives.knownUnless {o : Outcome α} {a : α} (h : Gives o a) : KnownUnless full o :=
  h.imp (fun hok => ⟨a, hok⟩) Or.inl

theorem knownUnless_pure (a : α) : KnownUnless full (pure a) := .inl (known_pure a)

/-- Step after step. -/
theorem KnownUnless.bind {o : Outcome α} {f : α → Outcome β} (h : KnownUnless full o)
    (hf : ∀ a, KnownUnless full (f a)) : KnownUnless full (o >>= f) := by
  obtain ⟨a, rfl⟩ | rfl | ⟨rfl, hfull⟩ := h
  · exact hf a
  · exact .inr (.inl rfl)
  · exact .inr (.inr ⟨rfl, hfull⟩)

theorem KnownUnless.mono {full' : Prop} {o : Outcome α} (h : KnownUnless full o)
    (himp : full → full') : KnownUnless full' o :=
  h.imp_right (.imp_right (.imp_right himp))

end Outcome

/-- Text has room, or else there is no room for it. -/
theorem Capacity.knownUnless_forChars {full : Prop} {n : Nat} (h : maxChars < n → full) :
    KnownUnless full (forChars n) := by
  unfold forChars
  split
  · exact .inl ⟨_, rfl⟩
  · next hroom => exact .inr (.inr ⟨rfl, h (by omega)⟩)

theorem Coordinate.knownUnless_listFrom {α : Type} {full : Prop} {f : Int → Outcome α}
    (hf : ∀ b, KnownUnless full (f b)) (start : Int) (n : Nat) :
    KnownUnless full (listFrom f start n) := by
  induction n generalizing start with
  | zero => exact knownUnless_pure []
  | succ n ih => exact (hf start).bind fun _ => (ih (start + 1)).bind fun _ => knownUnless_pure _

namespace Node

variable {β : Type} [BaseAxis β]

/-! ### The lines of a node, part by part -/

omit [BaseAxis β] in
/-- The heading of children, indented to a depth. -/
def heading (depth : Nat) (children : List (Node β)) : List Line :=
  if children.isEmpty then [] else [⟨depth, "children (" ++ toString children.length ++ "):"⟩]

theorem lines_none (o : DescribeOptions) (depth : Nat) (g : Grouping) (children : List (Node β)) :
    lines o depth ⟨none, g, children⟩ = (do
      Line.makeRoom depth
      return [⟨depth, "AxisNode (no base axis)"⟩]) := by
  rw [lines.eq_def]

/-- The lines of a node over an axis, part by part. -/
theorem lines_some (o : DescribeOptions) (depth : Nat) (base : β) (g : Grouping)
    (children : List (Node β)) :
    lines o depth ⟨some base, g, children⟩ = (do
      Line.makeRoom depth
      if o.baseOnly then return [⟨depth, baseText base⟩]
      else do
        let grouping ← groupingText g
        let bins ← (if o.ranges then binLines base g (depth + 1) else .ok [] : Outcome (List Line))
        let below ← linesOfAll o (depth + 2) children
        return ⟨depth, baseText base⟩ :: ⟨depth, grouping⟩ ::
          (bins ++ heading (depth + 1) children ++ below)) := by
  rw [lines.eq_def]
  cases o.ranges <;> rfl

theorem makeRoom_of_le {depth : Nat} (h : 2 * depth ≤ Capacity.maxChars) :
    Line.makeRoom depth = .ok () := if_pos h

theorem le_of_makeRoom {depth : Nat} (h : Line.makeRoom depth = .ok ()) :
    2 * depth ≤ Capacity.maxChars := by
  by_contra hnot
  rw [Line.makeRoom, Capacity.forChars, if_neg hnot] at h
  cases h

/-! ### Room for the innermost node -/

omit [BaseAxis β] in
mutual

/-- How much deeper than a node the innermost node of its description is indented. A description
with `baseOnly` does not go into the children. -/
def descent (baseOnly : Bool) : Node β → Nat
  | ⟨none, _, _⟩ => 0
  | ⟨some _, _, children⟩ => if baseOnly then 0 else descentOfAll baseOnly 2 children

/-- How much deeper the innermost node is indented in the descriptions of nodes that are `step`
levels deeper themselves. -/
def descentOfAll (baseOnly : Bool) (step : Nat) : List (Node β) → Nat
  | [] => 0
  | n :: ns => max (step + descent baseOnly n) (descentOfAll baseOnly step ns)

end

mutual

/-- **Room for the innermost node**: without it there are no lines. -/
theorem room_of_lines {o : DescribeOptions} {depth : Nat} : ∀ {n : Node β} {ls : List Line},
    n.lines o depth = .ok ls → 2 * (depth + n.descent o.baseOnly) ≤ Capacity.maxChars
  | ⟨none, g, children⟩, ls, h => by
    rw [lines_none] at h
    obtain ⟨_, hroom, -⟩ := bind_eq_ok.mp h
    exact le_of_makeRoom hroom
  | ⟨some base, g, children⟩, ls, h => by
    rw [lines_some] at h
    obtain ⟨_, hroom, h⟩ := bind_eq_ok.mp h
    rw [descent]
    split at h
    · next honly =>
      rw [if_pos honly]
      exact le_of_makeRoom hroom
    · next honly =>
      obtain ⟨grouping, -, h⟩ := bind_eq_ok.mp h
      obtain ⟨bins, -, h⟩ := bind_eq_ok.mp h
      obtain ⟨below, hbelow, -⟩ := bind_eq_ok.mp h
      rw [if_neg honly]
      exact room_of_linesOfAll (le_of_makeRoom hroom) hbelow

theorem room_of_linesOfAll {o : DescribeOptions} {depth step : Nat} :
    ∀ {ns : List (Node β)} {ls : List Line}, 2 * depth ≤ Capacity.maxChars →
      linesOfAll o (depth + step) ns = .ok ls →
      2 * (depth + descentOfAll o.baseOnly step ns) ≤ Capacity.maxChars
  | [], ls, hroom, _ => hroom
  | n :: ns, ls, hroom, h => by
    rw [linesOfAll] at h
    obtain ⟨here, hhere, h⟩ := bind_eq_ok.mp h
    obtain ⟨rest, hrest, -⟩ := bind_eq_ok.mp h
    have hn := room_of_lines hhere
    have hns := room_of_linesOfAll hroom hrest
    rw [descentOfAll]
    omega

end

/-! ### What else can go wrong -/

theorem knownUnless_makeRoom {depth below : Nat} :
    KnownUnless (Capacity.maxChars < 2 * (depth + below)) (Line.makeRoom depth) :=
  Capacity.knownUnless_forChars fun _ => by omega

theorem knownUnless_binLines (base : β) (g : Grouping) (depth : Nat) :
    KnownUnless True (binLines base g depth) := by
  have hline (b : Int) : KnownUnless True (binLine base g depth b) := by
    have htext : KnownUnless True (binText base g b) :=
      (g.firstBase_gives b).knownUnless.bind fun _ =>
        (g.lastBase_gives b).knownUnless.bind fun _ => knownUnless_pure _
    exact htext.bind fun _ => knownUnless_pure _
  unfold binLines
  split
  · exact knownUnless_pure []
  · refine (hline _).bind fun _ => (Capacity.knownUnless_forChars fun _ => trivial).bind fun _ => ?_
    exact (Coordinate.knownUnless_listFrom hline _ _).bind fun _ => knownUnless_pure _

mutual

/-- **The lines of a node are known** but for an overflow, and if there is room for the innermost
node and for the grouped bins. -/
theorem knownUnless_lines {o : DescribeOptions} {depth : Nat} : ∀ {n : Node β},
    KnownUnless (o.ranges = true ∨ Capacity.maxChars < 2 * (depth + n.descent o.baseOnly))
      (n.lines o depth)
  | ⟨none, g, children⟩ => by
    rw [lines_none]
    exact (knownUnless_makeRoom.mono Or.inr).bind fun _ => knownUnless_pure _
  | ⟨some base, g, children⟩ => by
    rw [lines_some, descent]
    refine (knownUnless_makeRoom.mono Or.inr).bind fun _ => ?_
    split
    · exact knownUnless_pure _
    · obtain ⟨text, htext⟩ := groupingText_gives g
      refine htext.knownUnless.bind fun _ => KnownUnless.bind ?_ fun _ => ?_
      · split
        · next hranges => exact (knownUnless_binLines base g _).mono fun _ => Or.inl hranges
        · exact (gives_ok []).knownUnless
      · exact knownUnless_linesOfAll.bind fun _ => knownUnless_pure _

theorem knownUnless_linesOfAll {o : DescribeOptions} {depth step : Nat} : ∀ {ns : List (Node β)},
    KnownUnless
      (o.ranges = true ∨ Capacity.maxChars < 2 * (depth + descentOfAll o.baseOnly step ns))
      (linesOfAll o (depth + step) ns)
  | [] => knownUnless_pure _
  | n :: ns => by
    rw [linesOfAll, descentOfAll]
    refine (knownUnless_lines.mono ?_).bind fun _ => ?_
    · exact fun hfull => hfull.imp_right fun _ => by omega
    · refine (knownUnless_linesOfAll.mono ?_).bind fun _ => knownUnless_pure _
      exact fun hfull => hfull.imp_right fun _ => by omega

end

/-- **A description is known** in the same way. -/
theorem knownUnless_describe (n : Node β) (o : DescribeOptions) :
    KnownUnless (o.ranges = true ∨ Capacity.maxChars < 2 * (o.indent + n.descent o.baseOnly))
      (n.describe o) :=
  knownUnless_lines.bind fun _ => knownUnless_pure _

omit [BaseAxis β] in
/-- **A node that is too deep to be described**: its innermost node would be indented more than
any text is long. -/
def TooDeep (n : Node β) : Prop := Capacity.maxChars < 2 * n.descent false

/-- Without its grouped bins, only a node that is too deep has no room. -/
theorem knownUnless_tooDeep (n : Node β) :
    KnownUnless n.TooDeep (n.describe DescribeOptions.full.withoutRanges) :=
  (n.knownUnless_describe _).mono fun hfull => by
    simpa [TooDeep, DescribeOptions.full, DescribeOptions.withoutRanges] using hfull

end Node

namespace CutSet

variable {β : Type} [BaseAxis β]

theorem knownUnless_linesFrom {o : DescribeOptions} (index : Nat) (ts : List (Node β)) :
    KnownUnless
      (o.ranges = true ∨
        Capacity.maxChars < 2 * (o.indent + Node.descentOfAll o.baseOnly 1 ts))
      (linesFrom o index ts) := by
  induction ts generalizing index with
  | nil => exact knownUnless_pure []
  | cons t ts ih =>
    rw [linesFrom, Node.descentOfAll]
    refine (Node.knownUnless_lines.mono ?_).bind fun _ => ?_
    · exact fun hfull => hfull.imp_right fun _ => by omega
    · refine ((ih (index + 1)).mono ?_).bind fun _ => knownUnless_pure _
      exact fun hfull => hfull.imp_right fun _ => by omega

/-- **The description of a cut set is known** in the same way. -/
theorem knownUnless_describe (c : CutSet β) (o : DescribeOptions) :
    KnownUnless
      (o.ranges = true ∨
        Capacity.maxChars < 2 * (o.indent + Node.descentOfAll o.baseOnly 1 c.trees))
      (c.describe o) := by
  refine (Capacity.knownUnless_forChars fun _ => Or.inr (by omega)).bind fun _ => ?_
  exact (knownUnless_linesFrom 0 c.trees).bind fun _ => knownUnless_pure _

end CutSet

end Binning
