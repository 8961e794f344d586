import Binning.Proofs.Containment
import Binning.Proofs.Numerals
import Binning.Proofs.Room

/-!
# Indentation

A description is asked for with a depth of indentation, and every part of it (the axis of a node,
its grouping, its grouped bins, the heading of its children, the children themselves, the heading
of a dimension) makes lines of its own. A part that forgot the indentation of one of them, or the
line break after it, would show in the text only.

The text knows nothing of parts. Its lines are what the line breaks make of it, and
`Binning.Text.indent` puts blanks before each of them. That this is what a deeper description is
(`Binning.OnlyIndents`) rests on two facts.

* The lines of a deeper description are the same lines, each of them deeper
  (`Binning.Node.lines_deeper`).
* A line of a description is one line of its text (`Binning.Node.unbroken_lines`): nothing that is
  written on it has a line break, provided that the labels of the axes have none.

Indentation also takes room. A description that is known without indentation is known at a depth
exactly if there is room for its innermost node (`Binning.Proofs.Room`).
-/

namespace Binning

open Outcome

namespace Outcome

variable {α β γ : Type}

theorem map_bind (f : β → γ) (o : Outcome α) (g : α → Outcome β) :
    (o >>= g).map f = o >>= fun a => (g a).map f := by
  cases o <;> rfl

theorem bind_map (f : α → β) (o : Outcome α) (g : β → Outcome γ) :
    o.map f >>= g = o >>= fun a => g (f a) := by
  cases o <;> rfl

end Outcome

namespace DescribeOptions

@[simp] theorem baseOnly_withIndent (o : DescribeOptions) (k : Nat) :
    (o.withIndent k).baseOnly = o.baseOnly := rfl

@[simp] theorem ranges_withIndent (o : DescribeOptions) (k : Nat) :
    (o.withIndent k).ranges = o.ranges := rfl

@[simp] theorem indent_withIndent (o : DescribeOptions) (k : Nat) :
    (o.withIndent k).indent = k := rfl

end DescribeOptions

/-! ### Lines of a text -/

namespace Text

/-- A text without a line break. -/
def Unbroken (s : String) : Prop := '\n' ∉ s.toList

instance : DecidablePred Unbroken := fun s => inferInstanceAs (Decidable ('\n' ∉ s.toList))

/-- **Every line ends with a line break**, so a text that is not empty ends with one. -/
def Ended (s : String) : Prop := s = "" ∨ ∃ cs, s.toList = cs ++ ['\n']

/-- Characters with `width` blanks before every line. The flag says whether a line begins here. -/
def indentFrom (width : Nat) : Bool → List Char → List Char
  | _, [] => []
  | true, c :: cs => List.replicate width ' ' ++ c :: indentFrom width (c == '\n') cs
  | false, c :: cs => c :: indentFrom width (c == '\n') cs

/-- **A text with `width` blanks put before every line.** -/
def indent (width : Nat) (s : String) : String := String.ofList (indentFrom width true s.toList)

example : indent 2 "a\n\nb\n" = "  a\n  \n  b\n" := by decide

/-- The blanks of a line stand before its first character. -/
theorem indentFrom_true (width : Nat) {cs : List Char} (h : cs ≠ []) :
    indentFrom width true cs = List.replicate width ' ' ++ indentFrom width false cs := by
  cases cs with
  | nil => exact absurd rfl h
  | cons c cs => rfl

/-- Up to its line break a line stays as it is. -/
theorem indentFrom_false_append {width : Nat} {cs : List Char} (h : '\n' ∉ cs) (rest : List Char) :
    indentFrom width false (cs ++ '\n' :: rest) = cs ++ '\n' :: indentFrom width true rest := by
  induction cs with
  | nil => rfl
  | cons c cs ih =>
    have hbreak : (c == '\n') = false :=
      beq_eq_false_iff_ne.mpr (List.ne_of_not_mem_cons h).symm
    rw [List.cons_append, indentFrom, hbreak, ih (List.not_mem_of_not_mem_cons h),
      List.cons_append]

/-! ### Texts without a line break -/

@[simp] theorem unbroken_append {s t : String} : Unbroken (s ++ t) ↔ Unbroken s ∧ Unbroken t := by
  simp [Unbroken]

@[simp] theorem unbroken_nat (n : Nat) : Unbroken (toString n) := by
  intro h
  rw [Nat.toString_eq_repr, Nat.toList_repr] at h
  exact absurd (Nat.isDigit_of_mem_toDigits (by decide) (by decide) h) (by decide)

@[simp] theorem unbroken_int (i : Int) : Unbroken (toString i) := by
  rw [Int.toString_eq_repr, Int.repr_eq_if]
  split
  · exact unbroken_nat _
  · exact unbroken_append.mpr ⟨by decide, unbroken_nat _⟩

end Text

open Text

theorem Digit.char_ne_break : ∀ d : Digit, d.char ≠ '\n' := by decide

theorem Digit.not_mem_map_char (ds : List Digit) : '\n' ∉ ds.map Digit.char := by
  intro h
  obtain ⟨d, -, hd⟩ := List.mem_map.mp h
  exact d.char_ne_break hd

theorem Exponent.not_mem_chars (e : Exponent) : '\n' ∉ e.chars := by
  unfold chars
  simp only [List.mem_cons, List.mem_append, not_or]
  refine ⟨by decide, ?_, Digit.not_mem_map_char _⟩
  rcases e.sign with - | - | - <;> decide

/-- The text of a numeral has no line break. -/
theorem Numeral.unbroken_text (n : Numeral) : Unbroken n.text := by
  have hsign : '\n' ∉ (if n.negative then ['-'] else []) := by split <;> decide
  have hfraction :
      '\n' ∉ (if n.fraction.isEmpty then [] else '.' :: n.fraction.map Digit.char) := by
    split
    · exact List.not_mem_nil
    · exact List.not_mem_cons_of_ne_of_not_mem (by decide) (Digit.not_mem_map_char _)
  unfold Unbroken text chars
  rw [String.toList_ofList]
  simp only [List.mem_append, not_or]
  refine ⟨⟨⟨hsign, Digit.not_mem_map_char _⟩, hfraction⟩, ?_⟩
  cases n.exponent with
  | none => exact List.not_mem_nil
  | some e => exact e.not_mem_chars

/-- The text of a double has no line break. -/
@[simp] theorem Layout.unbroken_text (l : Layout) (x : Double) : Unbroken (l.text x) := by
  unfold text
  split
  · decide
  split
  · exact (l.numeral x).unbroken_text
  · split <;> decide

/-! ### Lines of a description -/

namespace Line

/-- A line, deeper by `k` levels. -/
def deeper (k : Nat) (l : Line) : Line := { l with depth := l.depth + k }

/-- **A deeper line** is the line with blanks before it. -/
theorem indentFrom_chars {l : Line} (h : Unbroken l.text) (k : Nat) (rest : List Char) :
    indentFrom (2 * k) true (l.chars ++ rest) =
      (l.deeper k).chars ++ indentFrom (2 * k) true rest := by
  have hline : '\n' ∉ List.replicate (2 * l.depth) ' ' ++ l.text.toList := by
    simpa [Unbroken] using h
  have hchars : l.chars ++ rest =
      (List.replicate (2 * l.depth) ' ' ++ l.text.toList) ++ '\n' :: rest := by
    rw [chars, List.append_assoc _ ['\n'], List.singleton_append]
  have hblanks : List.replicate (2 * (l.depth + k)) ' ' =
      List.replicate (2 * k) ' ' ++ List.replicate (2 * l.depth) ' ' := by
    rw [List.replicate_append_replicate, Nat.mul_add, Nat.add_comm]
  rw [hchars, indentFrom_true _ (by simp), indentFrom_false_append hline, chars, deeper, hblanks]
  simp only [List.append_assoc, List.singleton_append]

/-- **Deeper lines** are the text of the lines with blanks before each of them. -/
theorem render_deeper {ls : List Line} (h : ∀ l ∈ ls, Unbroken l.text) (k : Nat) :
    render (ls.map (deeper k)) = indent (2 * k) (render ls) := by
  have hchars : (ls.map (deeper k)).flatMap chars =
      indentFrom (2 * k) true (ls.flatMap chars) := by
    induction ls with
    | nil => rfl
    | cons l ls ih =>
      obtain ⟨hl, hls⟩ := List.forall_mem_cons.mp h
      rw [List.map_cons, List.flatMap_cons, List.flatMap_cons, indentFrom_chars hl, ih hls]
  rw [render, hchars, indent, render, String.toList_ofList]

/-- The text of lines ends with a line break, unless there are none. -/
theorem ended_render (ls : List Line) : Ended (render ls) := by
  rcases List.eq_nil_or_concat ls with rfl | ⟨ls, l, rfl⟩
  · exact Or.inl rfl
  · refine Or.inr ⟨ls.flatMap chars ++ (List.replicate (2 * l.depth) ' ' ++ l.text.toList), ?_⟩
    rw [render, String.toList_ofList, List.concat_eq_append, List.flatMap_append, List.flatMap_cons,
      List.flatMap_nil, List.append_nil, chars, ← List.append_assoc]

end Line

/-! ### The lines of a node -/

/-- No label of an axis has a line break. -/
def UnbrokenLabels {β : Type} [BaseAxis β] (base : β) : Prop :=
  ∀ bin label, BaseAxis.label base bin = some label → Unbroken label

/-- Labels that are written down have no line break if none of them has one. -/
theorem Axis.unbrokenLabels {a : Axis} (h : ∀ ls, a.labels = some ls → ∀ l ∈ ls, Unbroken l) :
    UnbrokenLabels a := by
  intro bin label hlabel
  have hlabel : a.label bin = some label := hlabel
  unfold Axis.label at hlabel
  split at hlabel
  · cases hlabel
  · obtain ⟨ls, hls, hget⟩ := Option.bind_eq_some_iff.mp hlabel
    exact h ls hls label (List.mem_of_getElem? hget)

namespace Node

variable {β : Type} [BaseAxis β]

/-- **A tree is legible** if no label of its axes has a line break. -/
def Legible (n : Node β) : Prop :=
  n.Everywhere fun m => ∀ base, m.base = some base → UnbrokenLabels base

theorem unbroken_baseText (base : β) : Unbroken (baseText base) := by
  unfold baseText
  dsimp only
  split
  · decide
  · simp only [unbroken_append, unbroken_nat, Layout.unbroken_text, and_true]
    decide

theorem unbroken_groupingText {g : Grouping} {text : String} (h : groupingText g = .ok text) :
    Unbroken text := by
  obtain ⟨start, -, h⟩ := bind_eq_ok.mp h
  obtain ⟨stop, -, h⟩ := bind_eq_ok.mp h
  obtain rfl := pure_eq_ok.mp h
  simp only [intervalText, unbroken_append, unbroken_int, and_true]
  decide

/-- The text of a grouped bin has no line break but for that of its label. -/
theorem unbroken_binLine {base : β} (hlabels : UnbrokenLabels base) {g : Grouping} {depth : Nat}
    {b : Int} {l : Line} (h : binLine base g depth b = .ok l) : Unbroken l.text := by
  obtain ⟨text, htext, h⟩ := bind_eq_ok.mp h
  obtain rfl := pure_eq_ok.mp h
  obtain ⟨first, -, htext⟩ := bind_eq_ok.mp htext
  obtain ⟨last, -, htext⟩ := bind_eq_ok.mp htext
  obtain rfl := pure_eq_ok.mp htext
  simp only [unbroken_append, unbroken_int, Layout.unbroken_text, and_true]
  refine ⟨by decide, ?_⟩
  split
  · next label hlabel =>
    split at hlabel
    · exact unbroken_append.mpr
        ⟨unbroken_append.mpr ⟨by decide, hlabels _ _ hlabel⟩, by decide⟩
    · cases hlabel
  · decide

theorem forall_of_listFrom {α : Type} {P : α → Prop} {f : Int → Outcome α}
    (hf : ∀ b a, f b = .ok a → P a) {start : Int} {n : Nat} {as : List α}
    (h : Coordinate.listFrom f start n = .ok as) : ∀ a ∈ as, P a := by
  induction n generalizing start as with
  | zero =>
    obtain rfl := Except.ok.inj h
    exact nofun
  | succ n ih =>
    obtain ⟨a, ha, h⟩ := bind_eq_ok.mp h
    obtain ⟨as', has, h⟩ := bind_eq_ok.mp h
    obtain rfl := pure_eq_ok.mp h
    exact List.forall_mem_cons.mpr ⟨hf _ _ ha, ih has⟩

theorem unbroken_binLines {base : β} (hlabels : UnbrokenLabels base) {g : Grouping} {depth : Nat}
    {ls : List Line} (h : binLines base g depth = .ok ls) : ∀ l ∈ ls, Unbroken l.text := by
  have hline : ∀ b l, binLine base g depth b = .ok l → Unbroken l.text :=
    fun _ _ hl => unbroken_binLine hlabels hl
  unfold binLines at h
  split at h
  · obtain rfl := Except.ok.inj h
    exact nofun
  · obtain ⟨first, hfirst, h⟩ := bind_eq_ok.mp h
    obtain ⟨_, -, h⟩ := bind_eq_ok.mp h
    obtain ⟨rest, hrest, h⟩ := bind_eq_ok.mp h
    obtain rfl := pure_eq_ok.mp h
    exact List.forall_mem_cons.mpr ⟨hline _ _ hfirst, forall_of_listFrom hline hrest⟩

omit [BaseAxis β] in
theorem unbroken_heading (depth : Nat) (children : List (Node β)) :
    ∀ l ∈ heading depth children, Unbroken l.text := by
  unfold heading
  split
  · exact nofun
  · refine List.forall_mem_singleton.mpr ?_
    simp only [unbroken_append, unbroken_nat, and_true]
    decide

mutual

/-- **A line of a description is one line of its text.** -/
theorem unbroken_lines {o : DescribeOptions} {depth : Nat} :
    ∀ {n : Node β} {ls : List Line},
      n.Legible → n.lines o depth = .ok ls → ∀ l ∈ ls, Unbroken l.text
  | ⟨none, g, children⟩, ls, _, h => by
    rw [lines_none] at h
    obtain ⟨_, -, h⟩ := bind_eq_ok.mp h
    obtain rfl := pure_eq_ok.mp h
    exact List.forall_mem_singleton.mpr (by decide : Unbroken "AxisNode (no base axis)")
  | ⟨some base, g, children⟩, ls, hlabels, h => by
    obtain ⟨hbase, hchildren⟩ := everywhere_iff.mp hlabels
    rw [lines_some] at h
    obtain ⟨_, -, h⟩ := bind_eq_ok.mp h
    split at h
    · obtain rfl := pure_eq_ok.mp h
      exact List.forall_mem_singleton.mpr (unbroken_baseText base)
    · obtain ⟨grouping, hgrouping, h⟩ := bind_eq_ok.mp h
      obtain ⟨bins, hbins, h⟩ := bind_eq_ok.mp h
      obtain ⟨below, hbelow, h⟩ := bind_eq_ok.mp h
      obtain rfl := pure_eq_ok.mp h
      have hbins : ∀ l ∈ bins, Unbroken l.text := by
        split at hbins
        · exact unbroken_binLines (hbase base rfl) hbins
        · obtain rfl := Except.ok.inj hbins
          exact nofun
      rw [List.forall_mem_cons, List.forall_mem_cons, List.forall_mem_append,
        List.forall_mem_append]
      exact ⟨unbroken_baseText base, unbroken_groupingText hgrouping,
        ⟨hbins, unbroken_heading _ children⟩, unbroken_linesOfAll hchildren hbelow⟩

theorem unbroken_linesOfAll {o : DescribeOptions} {depth : Nat} :
    ∀ {ns : List (Node β)} {ls : List Line},
      (∀ n ∈ ns, n.Legible) → linesOfAll o depth ns = .ok ls → ∀ l ∈ ls, Unbroken l.text
  | [], ls, _, h => by
    obtain rfl := Except.ok.inj h
    exact nofun
  | n :: ns, ls, hlabels, h => by
    obtain ⟨hn, hns⟩ := List.forall_mem_cons.mp hlabels
    rw [linesOfAll] at h
    obtain ⟨here, hhere, h⟩ := bind_eq_ok.mp h
    obtain ⟨rest, hrest, h⟩ := bind_eq_ok.mp h
    obtain rfl := pure_eq_ok.mp h
    rw [List.forall_mem_append]
    exact ⟨unbroken_lines hn hhere, unbroken_linesOfAll hns hrest⟩

end

/-! ### Deeper descriptions -/

theorem binLine_deeper (base : β) (g : Grouping) (depth k : Nat) (b : Int) :
    binLine base g (depth + k) b = (binLine base g depth b).map (Line.deeper k) := by
  unfold binLine
  cases binText base g b with
  | error e => rfl
  | ok text => rfl

theorem binLines_deeper (base : β) (g : Grouping) (depth k : Nat) :
    binLines base g (depth + k) = (binLines base g depth).map (List.map (Line.deeper k)) := by
  have hlist (start : Int) (n : Nat) : Coordinate.listFrom (binLine base g (depth + k)) start n =
      (Coordinate.listFrom (binLine base g depth) start n).map (List.map (Line.deeper k)) := by
    induction n generalizing start with
    | zero => rfl
    | succ n ih =>
      rw [Coordinate.listFrom, Coordinate.listFrom, binLine_deeper, ih]
      simp only [map_bind, bind_map]
      rfl
  unfold binLines
  split
  · rfl
  · rw [binLine_deeper, hlist]
    simp only [map_bind, bind_map]
    rfl

omit [BaseAxis β] in
theorem heading_deeper (depth k : Nat) (children : List (Node β)) :
    heading (depth + k) children = (heading depth children).map (Line.deeper k) := by
  unfold heading
  split <;> rfl

mutual

/-- **A deeper description has the same lines**, each of them deeper, as long as there is room for
its innermost node. -/
theorem lines_deeper {o : DescribeOptions} {depth k : Nat} : ∀ {n : Node β},
    2 * (depth + k + n.descent o.baseOnly) ≤ Capacity.maxChars →
      n.lines (o.withIndent k) (depth + k) = (n.lines o depth).map (List.map (Line.deeper k))
  | ⟨none, g, children⟩, hroom => by
    rw [lines_none, lines_none, makeRoom_of_le (by omega), makeRoom_of_le (by omega)]
    rfl
  | ⟨some base, g, children⟩, hroom => by
    rw [lines_some, lines_some, makeRoom_of_le (by omega), makeRoom_of_le (by omega), ok_bind,
      ok_bind, DescribeOptions.baseOnly_withIndent, DescribeOptions.ranges_withIndent]
    rw [descent] at hroom
    by_cases honly : o.baseOnly = true
    · rw [if_pos honly, if_pos honly]
      rfl
    · rw [if_neg honly] at hroom
      have hbins : (if o.ranges then binLines base g (depth + k + 1) else .ok []) =
          (if o.ranges then binLines base g (depth + 1) else .ok []).map
            (List.map (Line.deeper k)) := by
        rw [Nat.add_right_comm depth k 1, binLines_deeper]
        split <;> rfl
      have hbelow : linesOfAll (o.withIndent k) (depth + k + 2) children =
          (linesOfAll o (depth + 2) children).map (List.map (Line.deeper k)) := by
        rw [Nat.add_right_comm depth k 2]
        exact linesOfAll_deeper hroom
      rw [if_neg honly, if_neg honly, hbins, hbelow]
      simp only [map_bind, bind_map]
      refine bind_congr fun grouping => bind_congr fun bins => bind_congr fun below => ?_
      rw [Nat.add_right_comm depth k 1, heading_deeper, ← List.map_append, ← List.map_append]
      rfl

theorem linesOfAll_deeper {o : DescribeOptions} {depth k step : Nat} : ∀ {ns : List (Node β)},
    2 * (depth + k + descentOfAll o.baseOnly step ns) ≤ Capacity.maxChars →
      linesOfAll (o.withIndent k) (depth + step + k) ns =
        (linesOfAll o (depth + step) ns).map (List.map (Line.deeper k))
  | [], _ => rfl
  | n :: ns, hroom => by
    rw [descentOfAll] at hroom
    have hhere : n.lines (o.withIndent k) (depth + step + k) =
        (n.lines o (depth + step)).map (List.map (Line.deeper k)) := lines_deeper (by omega)
    have hrest : linesOfAll (o.withIndent k) (depth + step + k) ns =
        (linesOfAll o (depth + step) ns).map (List.map (Line.deeper k)) :=
      linesOfAll_deeper (by omega)
    rw [linesOfAll, linesOfAll, hhere, hrest]
    simp only [map_bind, bind_map]
    refine bind_congr fun here => bind_congr fun rest => ?_
    rw [← List.map_append]
    rfl

end

end Node

/-! ### The lines of a cut set -/

namespace CutSet

variable {β : Type} [BaseAxis β]

theorem linesFrom_deeper {o : DescribeOptions} {k : Nat} {ts : List (Node β)} (index : Nat)
    (hroom : 2 * (k + Node.descentOfAll o.baseOnly 1 ts) ≤ Capacity.maxChars) :
    linesFrom (o.withIndent k) index ts =
      (linesFrom (o.withIndent 0) index ts).map (List.map (Line.deeper k)) := by
  induction ts generalizing index with
  | nil => rfl
  | cons t ts ih =>
    rw [Node.descentOfAll] at hroom
    have hhere : t.lines (o.withIndent k) (k + 1) =
        (t.lines (o.withIndent 0) 1).map (List.map (Line.deeper k)) := by
      have hroom : 2 * (1 + k + t.descent (o.withIndent 0).baseOnly) ≤ Capacity.maxChars := by
        rw [DescribeOptions.baseOnly_withIndent]
        omega
      rw [Nat.add_comm k 1]
      exact Node.lines_deeper hroom
    have hrest := ih (index + 1) (by omega)
    simp only [linesFrom, DescribeOptions.indent_withIndent, hhere, hrest, map_bind, bind_map]
    refine bind_congr fun here => bind_congr fun rest => ?_
    rw [← List.map_append]
    exact congrArg (fun depth => Except.ok (Line.mk depth _ :: _)) (Nat.zero_add k).symm

theorem room_of_linesFrom {o : DescribeOptions} {index : Nat} {ts : List (Node β)} {ls : List Line}
    (hroom : 2 * o.indent ≤ Capacity.maxChars) (h : linesFrom o index ts = .ok ls) :
    2 * (o.indent + Node.descentOfAll o.baseOnly 1 ts) ≤ Capacity.maxChars := by
  induction ts generalizing index ls with
  | nil => exact hroom
  | cons t ts ih =>
    obtain ⟨here, hhere, h⟩ := bind_eq_ok.mp h
    obtain ⟨rest, hrest, -⟩ := bind_eq_ok.mp h
    have ht := Node.room_of_lines hhere
    have hts := ih hrest
    rw [Node.descentOfAll]
    omega

theorem unbroken_linesFrom {o : DescribeOptions} {index : Nat} {ts : List (Node β)}
    {ls : List Line}
    (hlabels : ∀ t ∈ ts, t.Legible)
    (h : linesFrom o index ts = .ok ls) : ∀ l ∈ ls, Unbroken l.text := by
  induction ts generalizing index ls with
  | nil =>
    obtain rfl := Except.ok.inj h
    exact nofun
  | cons t ts ih =>
    obtain ⟨ht, hts⟩ := List.forall_mem_cons.mp hlabels
    obtain ⟨here, hhere, h⟩ := bind_eq_ok.mp h
    obtain ⟨rest, hrest, h⟩ := bind_eq_ok.mp h
    obtain rfl := pure_eq_ok.mp h
    have hheading : Unbroken ("Dimension " ++ toString index ++ ":") := by
      simp only [unbroken_append, unbroken_nat, and_true]
      decide
    rw [List.forall_mem_cons, List.forall_mem_append]
    exact ⟨hheading, Node.unbroken_lines ht hhere, ih hts hrest⟩

end CutSet

/-! ### Indentation only indents -/

/-- **Indentation only indents.** A description can be asked for at any depth of indentation, and
its innermost node is indented `descent` levels more. -/
structure OnlyIndents (describe : Nat → Outcome String) (descent : Nat) : Prop where
  /-- There is a description at a depth if there is one without indentation, and if there is room
  for its innermost node. -/
  known_iff : ∀ k, Known (describe k) ↔
    Known (describe 0) ∧ 2 * (k + descent) ≤ Capacity.maxChars
  /-- It is the description without indentation, with two blanks for each level before every
  line. -/
  eq_indent : ∀ k s s₀, describe k = .ok s → describe 0 = .ok s₀ → s = indent (2 * k) s₀
  /-- Every line ends with a line break. -/
  ended : ∀ k s, describe k = .ok s → Ended s

/-- Lines that only get deeper are a text that is only indented. -/
theorem onlyIndents_of_lines {lines : Nat → Outcome (List Line)} {descent : Nat}
    (hdeeper : ∀ k, 2 * (k + descent) ≤ Capacity.maxChars →
      lines k = (lines 0).map (List.map (Line.deeper k)))
    (hroom : ∀ k ls, lines k = .ok ls → 2 * (k + descent) ≤ Capacity.maxChars)
    (hunbroken : ∀ ls, lines 0 = .ok ls → ∀ l ∈ ls, Unbroken l.text) :
    OnlyIndents (fun k => (lines k).map Line.render) descent where
  known_iff k := by
    constructor
    · rintro ⟨s, hs⟩
      obtain ⟨ls, hls, -⟩ := Except.map_eq_ok.mp hs
      have hk := hroom k ls hls
      rw [hdeeper k hk] at hls
      obtain ⟨ls₀, hls₀, -⟩ := Except.map_eq_ok.mp hls
      exact ⟨⟨_, Except.map_eq_ok.mpr ⟨ls₀, hls₀, rfl⟩⟩, hk⟩
    · rintro ⟨⟨s, hs⟩, hk⟩
      obtain ⟨ls₀, hls₀, -⟩ := Except.map_eq_ok.mp hs
      have hls : lines k = .ok (ls₀.map (Line.deeper k)) := by
        rw [hdeeper k hk, hls₀]
        rfl
      exact ⟨_, Except.map_eq_ok.mpr ⟨_, hls, rfl⟩⟩
  eq_indent k s s₀ hs hs₀ := by
    obtain ⟨ls, hls, rfl⟩ := Except.map_eq_ok.mp hs
    obtain ⟨ls₀, hls₀, rfl⟩ := Except.map_eq_ok.mp hs₀
    rw [hdeeper k (hroom k ls hls), hls₀] at hls
    obtain rfl := Except.ok.inj hls
    exact Line.render_deeper (hunbroken ls₀ hls₀) k
  ended k s hs := by
    obtain ⟨ls, -, rfl⟩ := Except.map_eq_ok.mp hs
    exact Line.ended_render ls

section

variable {β : Type} [BaseAxis β]

theorem Node.describe_eq_map (n : Node β) (o : DescribeOptions) :
    n.describe o = (n.lines o o.indent).map Line.render := by
  unfold Node.describe
  cases n.lines o o.indent <;> rfl

/-- The lines of a cut set, with room for the first of them. -/
def CutSet.lines (c : CutSet β) (o : DescribeOptions) : Outcome (List Line) := do
  Line.makeRoom o.indent
  CutSet.linesFrom o 0 c.trees

theorem CutSet.describe_eq_map (c : CutSet β) (o : DescribeOptions) :
    c.describe o = (c.lines o).map Line.render := by
  unfold CutSet.describe CutSet.lines
  rw [map_bind]
  refine bind_congr fun _ => ?_
  cases CutSet.linesFrom o 0 c.trees <;> rfl

/-- **Indentation only indents** the descriptions of trees and of cut sets, over any axes whose
labels have no line break, with any options. -/
theorem describe_onlyIndents :
    (∀ n : Node β, n.Legible → ∀ o : DescribeOptions,
      OnlyIndents (fun k => n.describe (o.withIndent k)) (n.descent o.baseOnly)) ∧
    ∀ c : CutSet β, (∀ t ∈ c.trees, t.Legible) → ∀ o : DescribeOptions,
      OnlyIndents (fun k => c.describe (o.withIndent k))
        (Node.descentOfAll o.baseOnly 1 c.trees) := by
  constructor
  · intro n hn o
    simp only [Node.describe_eq_map]
    refine onlyIndents_of_lines ?_ ?_ ?_
    · intro k hroom
      have hdeeper : n.lines (o.withIndent k) (0 + k) =
          (n.lines (o.withIndent 0) 0).map (List.map (Line.deeper k)) :=
        Node.lines_deeper (o := o.withIndent 0) (by rwa [Nat.zero_add])
      rwa [Nat.zero_add] at hdeeper
    · exact fun k ls hls => Node.room_of_lines (o := o.withIndent k) hls
    · exact fun ls hls => Node.unbroken_lines hn hls
  · intro c hc o
    simp only [CutSet.describe_eq_map]
    refine onlyIndents_of_lines ?_ ?_ ?_
    · intro k hroom
      have hk : Line.makeRoom k = .ok () := Node.makeRoom_of_le (by omega)
      have hdeeper := CutSet.linesFrom_deeper 0 hroom
      unfold CutSet.lines
      rw [DescribeOptions.indent_withIndent, hk, ok_bind, hdeeper]
      rfl
    · intro k ls hls
      obtain ⟨_, hk, hls⟩ := bind_eq_ok.mp hls
      exact CutSet.room_of_linesFrom (Node.le_of_makeRoom hk) hls
    · intro ls hls
      obtain ⟨_, -, hls⟩ := bind_eq_ok.mp hls
      exact CutSet.unbroken_linesFrom hc hls

end

/-- Two labelled bins, and one group of both. -/
def labelledPair : Node Axis :=
  let axis : Axis := ⟨[⟨0⟩, ⟨0x3FF0000000000000⟩, ⟨0x4000000000000000⟩], some ["low", "high"]⟩
  ⟨some axis, ⟨1, 0, 1, 2, 2, Grouping.one_le_one⟩,
    [⟨some axis, ⟨2, 0, 1, 1, 1, Grouping.one_le_two⟩, []⟩]⟩

/-- Three levels of indentation put six blanks before every line of this tree, and before every
line of a cut set of this tree and of a tree without an axis. -/
theorem describe_onlyIndents_labelled :
    labelledPair.Legible ∧ (∀ t ∈ [labelledPair, Node.blank], t.Legible) ∧
    (∃ s₀ s, labelledPair.describe (DescribeOptions.full.withIndent 0) = .ok s₀ ∧
      labelledPair.describe (DescribeOptions.full.withIndent 3) = .ok s ∧
      s = indent 6 s₀ ∧ Ended s) ∧
    ∃ s₀ s, CutSet.describe ⟨[labelledPair, Node.blank]⟩ (DescribeOptions.full.withIndent 0) =
        .ok s₀ ∧
      CutSet.describe ⟨[labelledPair, Node.blank]⟩ (DescribeOptions.full.withIndent 3) = .ok s ∧
      s = indent 6 s₀ ∧ Ended s := by
  have hpair : labelledPair.Legible := by
    have hlabels (m : Node Axis) (hm : m.base = labelledPair.base) :
        ∀ base, m.base = some base → UnbrokenLabels base := by
      rintro base hbase
      obtain rfl := Option.some.inj (hm.symm.trans hbase)
      refine Axis.unbrokenLabels fun ls hls => ?_
      obtain rfl := Option.some.inj hls
      decide
    refine Node.everywhere_iff.mpr ⟨hlabels _ rfl, List.forall_mem_singleton.mpr ?_⟩
    exact Node.everywhere_iff.mpr ⟨hlabels _ rfl, nofun⟩
  have hblank : (Node.blank : Node Axis).Legible :=
    Node.everywhere_iff.mpr ⟨nofun, nofun⟩
  have htrees : ∀ t ∈ [labelledPair, Node.blank], t.Legible :=
    List.forall_mem_cons.mpr ⟨hpair, List.forall_mem_singleton.mpr hblank⟩
  have htree := describe_onlyIndents.1 labelledPair hpair DescribeOptions.full
  have hcuts := describe_onlyIndents.2 ⟨[labelledPair, Node.blank]⟩ htrees DescribeOptions.full
  obtain ⟨s, hs⟩ := (htree.known_iff 3).mpr ⟨⟨_, rfl⟩, by decide⟩
  obtain ⟨s', hs'⟩ := (hcuts.known_iff 3).mpr ⟨⟨_, rfl⟩, by decide⟩
  exact ⟨hpair, htrees, ⟨_, s, rfl, hs, htree.eq_indent 3 s _ hs rfl, htree.ended 3 s hs⟩,
    _, s', rfl, hs', hcuts.eq_indent 3 s' _ hs' rfl, hcuts.ended 3 s' hs'⟩

end Binning
