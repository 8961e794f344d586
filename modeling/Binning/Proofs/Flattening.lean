import Binning.Proofs.Building
import Binning.Proofs.Moderate
import Binning.Proofs.Sequence
import Binning.Proofs.Usable

/-!
# Flattening cannot overflow

Placing a range calculates with coordinates, and an overflow there ends the construction of
a tree. What has been calculated without an overflow bounds what flattening calculates later:
the base bins covered before a child are a coordinate, and so is the end of the child. Every grouped
bin of the child ends in between, so its end is a coordinate too
(`Binning.Node.Counted.lastBase_eq`), however far from the axis the child may be.

The invariant is `Binning.Node.Counted`. A tree that has it flattens
(`Binning.Node.Counted.flattens`): its edges are known, or they are more than a list can hold, and
never both (`Binning.Node.room_of_flattenedEdges`). For cut sets these are
`Binning.Config.flattens_of_buildCutSet` and `Binning.Config.room_of_flattenedEdges`.
-/

namespace Binning

open Outcome Coordinate

/-! ### What was calculated is a coordinate -/

theorem Coordinate.inRange_of_checked {x y : Int} (h : checked x = .ok y) : InRange x := by
  unfold checked at h
  split at h
  · next hx => exact hx
  · cases h

/-- If the end of a grouped bin is known, it is a coordinate with and without the skipped bins. -/
theorem Grouping.inRange_of_lastBase {g : Grouping} {b last : Int} (hne : g.size ≠ 1)
    (h : g.lastBase b = .ok last) : InRange (b * g.size) ∧ InRange (b * g.size + g.skip) := by
  rw [lastBase, if_neg hne] at h
  obtain ⟨product, hproduct, hsum⟩ := bind_eq_ok.mp h
  obtain rfl := (gives_mul _ _).eq_of_ok hproduct
  exact ⟨inRange_of_checked hproduct, inRange_of_checked hsum⟩

/-- **The end of every grouped bin is known** if the end of the local range is, and neither its
start nor the skipped bins are too far below zero. -/
theorem Grouping.lastBase_of_stop {g : Grouping} {b : Int} (hskip : 0 ≤ g.skip)
    (hmin : -2 ^ 63 ≤ g.low * g.size) (hstop : g.stop = .ok g.upper) (hlow : g.low ≤ b)
    (hhigh : b ≤ g.high) : g.lastBase b = .ok (g.lastBin b) := by
  by_cases hone : g.size = 1
  · rw [lastBase, lastBin, if_pos hone, if_pos hone]
  have hsize := g.size_pos
  obtain ⟨hproduct, hsum⟩ := inRange_of_lastBase hone hstop
  have hfrom := Int.mul_le_mul_of_nonneg_right (c := g.size) hlow (by omega)
  have hto := Int.mul_le_mul_of_nonneg_right (c := g.size) hhigh (by omega)
  unfold InRange at hproduct hsum
  refine lastBase_of_inRange ⟨by omega, by omega⟩ ?_
  rw [lastBin, if_neg hone]
  exact ⟨by omega, by omega⟩

namespace Node

variable {β : Type}

/-- A sum of widths that is known is a coordinate. -/
theorem inRange_of_totalWidth {ns : List (Node β)} {total sum : Int} (htotal : InRange total)
    (h : totalWidth total ns = .ok sum) : InRange sum := by
  induction ns generalizing total with
  | nil =>
    obtain rfl : total = sum := Except.ok.inj h
    exact htotal
  | cons n ns ih =>
    obtain ⟨width, -, h⟩ := bind_eq_ok.mp h
    obtain ⟨next, hnext, h⟩ := bind_eq_ok.mp h
    obtain rfl := (gives_add _ _).eq_of_ok hnext
    exact ih (inRange_of_checked hnext) h

/-- The base bins before the first grouped bin of a child are those covered so far, apart from the
skipped ones, and none are skipped backwards. -/
theorem IsPlaced.covered_le {before : List (Node β)} {c : Node β} (h : IsPlaced 1 before c) :
    0 ≤ c.grouping.skip ∧ covered before ≤ c.grouping.low * c.grouping.size := by
  have hsize := c.grouping.size_pos
  cases before with
  | nil =>
    obtain ⟨hskip, hlow⟩ := h
    rw [hskip, hlow, covered_nil]
    exact ⟨Int.emod_nonneg 1 (by omega),
      Int.mul_nonneg (Int.ediv_nonneg (by omega) (by omega)) (by omega)⟩
  | cons first middle =>
    obtain ⟨hskip, hlow⟩ := h
    have hfirst := first.grouping.size_pos
    have hmod := Int.emod_nonneg (covered (first :: middle)) (b := c.grouping.size) (by omega)
    have hmod' := Int.emod_nonneg 1 (b := first.grouping.size) (by omega)
    have hlt := Int.emod_lt_of_pos (covered (first :: middle)) (b := c.grouping.size) (by omega)
    have hdiv := Int.ediv_mul_add_emod (covered (first :: middle)) c.grouping.size
    rw [hskip, hlow, Int.add_mul, Int.one_mul]
    exact ⟨by omega, by omega⟩

variable [BaseAxis β]

/-- The bins that are covered by the children of a node are a coordinate, if its next range has a
place. -/
theorem inRange_covered_of_place {n : Node β} {base : β} {size : Int} {bins : Option Int}
    {p : Placement} (h : n.place base size bins = .ok p) : InRange (covered n.children) := by
  unfold place at h
  split at h
  · next hleaf =>
    rw [List.isEmpty_iff.mp hleaf, covered_nil]
    decide
  · obtain ⟨sum, hsum, -⟩ := bind_eq_ok.mp h
    have hcovered := (totalWidth_gives 0 n.children).eq_of_ok hsum
    rw [Int.zero_add] at hcovered
    rw [← hcovered]
    exact inRange_of_totalWidth (by decide) hsum

/-! ### The invariant -/

/-- **The invariant of a root with ranges**: it counts the bins of its axis, and the base bins
covered before each child are a coordinate. -/
structure Counted (base : β) (m : Node β) : Prop extends Rooted base m where
  count_eq : m.grouping.count = ofCount (BaseAxis.binCount base)
  inRange : ∀ before c after, m.children = before ++ c :: after → InRange (covered before)

theorem counted_root (base : β) : Counted base (root base) where
  base_eq := rfl
  ranged := ranged_of_leaf (n := root base) rfl
  fills := by simp [root]
  count_eq := by rw [root]
  inRange before c after h := by simp [root] at h

/-- An accepted range preserves the invariant. -/
theorem Counted.addRange {base : β} {n m : Node β} {r : RangeSpec} (hn : Counted base n)
    (h : (n.addRange r).outcome = .ok m) : Counted base m := by
  have hrooted := hn.toRooted.addRange h
  obtain ⟨hsize, base', p, g, stop, limit, -, hplace, -, -, -, -, rfl⟩ := appendRange_eq_ok.mp h
  refine ⟨hrooted, ?_, fun before c after heq => ?_⟩
  · obtain rfl := (n.place_gives base' r.size r.bins).eq_of_ok hplace
    change (n.placed base' r.size r.bins).parent.count = _
    unfold placed
    dsimp only
    split <;> exact hn.count_eq
  · rcases concat_eq_append_cons heq with ⟨-, rfl, -⟩ | ⟨after', -, heq'⟩
    · exact inRange_covered_of_place hplace
    · exact hn.inRange before c after' heq'

/-- Attempts preserve the invariant. -/
theorem counted_of_tryRanges {base : β} {m : Node β} {calls accepted : List RangeSpec}
    (h : (root base).tryRanges calls = .ok (accepted, m)) : Counted base m :=
  Run.attempts_induction (P := fun _ m => Counted base m) (fun _ _ _ _ hs hr => hs.addRange hr) h []
    (counted_root base)

section Facts

variable {base : β} {m : Node β} (hm : Counted base m)

include hm

/-- **The end of every grouped bin is known.** It is between the base bins covered before its child
and the end of the child. -/
theorem Counted.lastBase_eq {before after : List (Node β)} {c : Node β}
    (hc : m.children = before ++ c :: after) {b : Int} (hlow : c.grouping.low ≤ b)
    (hhigh : b ≤ c.grouping.high) : c.grouping.lastBase b = .ok (c.grouping.lastBin b) := by
  obtain ⟨hskip, hcovered⟩ := (hm.ranged.placed before c after hc).covered_le
  obtain ⟨hmin, -⟩ := hm.inRange before c after hc
  exact Grouping.lastBase_of_stop hskip (by omega) (hm.ranged.stop_eq c (by simp [hc])) hlow hhigh

/-- The start of the first child is known, if its groups have a size that is a coordinate. -/
theorem Counted.start_eq {first : Node β} {rest : List (Node β)}
    (hc : m.children = first :: rest) (hlt : first.grouping.size < 2 ^ 63) :
    Known first.grouping.start := by
  obtain ⟨hskip, hlow⟩ := hm.ranged.placed [] first rest hc
  unfold Grouping.start Grouping.firstBase
  split
  · exact known_ok _
  · next hone =>
    have hsize := first.grouping.size_pos
    -- The first group reaches back from base bin `1`, which is its last one apart from the skip.
    rw [Int.ediv_eq_zero_of_lt (by omega) (by omega)] at hlow
    rw [Int.emod_eq_of_lt (by omega) (by omega)] at hskip
    rw [hlow, hskip, sub_of_inRange ⟨by omega, by omega⟩, ok_bind,
      mul_of_inRange ⟨by omega, by omega⟩, ok_bind, add_of_inRange ⟨by omega, by omega⟩, ok_bind,
      add_of_inRange ⟨by omega, by omega⟩]
    exact known_ok _

/-- **A tree flattens**, if the sizes of its groups are coordinates and its axis has room in a
list. -/
theorem Counted.flattens (hsizes : ∀ c ∈ m.children, c.grouping.size < 2 ^ 63)
    (hroom : BaseAxis.binCount base + 1 ≤ Capacity.maxEntries) : m.Flattens := by
  have hmax := Capacity.maxEntries_lt
  have hcount : m.grouping.count = BaseAxis.binCount base := by
    rw [hm.count_eq, ofCount_of_lt (by omega)]
  refine flattens_of_known (by rw [hcount]; exact ⟨by omega, by omega⟩) (by omega)
    (fun first rest hc => hm.start_eq hc (hsizes first (by simp [hc]))) fun base' c hc => ?_
  obtain ⟨before, after, hsplit⟩ := List.append_of_mem hc
  exact known_upEdges base' fun b hlow hhigh => hm.lastBase_eq hsplit hlow hhigh

end Facts

end Node

/-! ### Room -/

namespace Node

variable {β : Type} [BaseAxis β]

/-- There is room for the upper edges of nodes, after others, if they are known. -/
theorem room_of_upEdgesOfAll {base : β} {taken : Nat} {ns : List (Node β)} {es : List Double}
    (htaken : taken ≤ Capacity.maxEntries) (h : upEdgesOfAll base taken ns = .ok es) :
    taken + (groupedBins ns).length ≤ Capacity.maxEntries := by
  induction ns generalizing taken es with
  | nil => exact htaken
  | cons n ns ih =>
    obtain ⟨_, hroom, h⟩ := bind_eq_ok.mp h
    obtain ⟨here, -, h⟩ := bind_eq_ok.mp h
    obtain ⟨rest, hrest, -⟩ := bind_eq_ok.mp h
    have htaken' : taken + n.span ≤ Capacity.maxEntries := by
      unfold Capacity.forEntries at hroom
      split at hroom
      · assumption
      · cases hroom
    rw [groupedBins_cons, List.length_append, List.length_map, List.length_range, ← Nat.add_assoc]
    exact ih htaken' hrest

/-- There is room for the edges of a tree, if they are known. -/
theorem room_of_flattenedEdges {base : β} {n : Node β} {es : List Double}
    (hbase : n.base = some base) (h : n.flattenedEdges = .ok es) :
    1 + (groupedBins n.children).length ≤ Capacity.maxEntries := by
  unfold flattenedEdges at h
  rw [hbase] at h
  cases hc : n.children with
  | nil =>
    change 1 ≤ Capacity.maxEntries
    decide
  | cons first rest =>
    rw [hc] at h
    obtain ⟨_, -, h⟩ := bind_eq_ok.mp h
    obtain ⟨_, -, h⟩ := bind_eq_ok.mp h
    obtain ⟨_, -, h⟩ := bind_eq_ok.mp h
    obtain ⟨up, hup, -⟩ := bind_eq_ok.mp h
    exact room_of_upEdgesOfAll (by decide) hup

end Node

/-! ### Cut sets -/

namespace Config

/-- Every tree of a cut set has been built of a dimension over an axis. -/
theorem exists_of_mem_trees {c : Config} {axes : List Axis} {cuts : CutSet Axis}
    (h : (c.buildCutSet axes).outcome = .ok cuts) {t : Node Axis} (ht : t ∈ cuts.trees) :
    ∃ d ∈ c.dimensions, ∃ axis ∈ axes, (Node.root axis).tryRanges d.ranges = .ok (d.ranges, t) := by
  obtain ⟨i, hi⟩ := List.mem_iff_getElem?.mp ht
  obtain ⟨⟨d, axis⟩, hzip, hbuilt⟩ := exists_getElem?_of_forall₂ (forall₂_of_buildCutSet h).2 hi
  obtain ⟨hd, haxis⟩ := List.of_mem_zip (List.mem_of_getElem? hzip)
  exact ⟨d, hd, axis, haxis, Dimension.tryRanges_of_addRanges hbuilt⟩

/-- **The trees of a cut set flatten**, if the sizes of their groups are coordinates and their axes
have room in a list. -/
theorem flattens_of_buildCutSet {c : Config} {axes : List Axis} {cuts : CutSet Axis}
    (h : (c.buildCutSet axes).outcome = .ok cuts)
    (hsizes : ∀ d ∈ c.dimensions, ∀ r ∈ d.ranges, r.size < 2 ^ 63)
    (hroom : ∀ a ∈ axes, a.edges.length ≤ Capacity.maxEntries) :
    ∀ t ∈ cuts.trees, t.Flattens := by
  intro t ht
  obtain ⟨d, hd, axis, haxis, hrun⟩ := exists_of_mem_trees h ht
  have hedges := hroom axis haxis
  have hone : 1 ≤ Capacity.maxEntries := by decide
  have hcount : BaseAxis.binCount axis = axis.edges.length - 1 := rfl
  refine (Node.counted_of_tryRanges hrun).flattens (fun child hchild => ?_) (by omega)
  obtain ⟨-, hranges⟩ := Node.ranged_of_tryRanges rfl hrun
  have hmem : child.grouping.size ∈ d.ranges.map RangeSpec.size :=
    hranges ▸ List.mem_map_of_mem hchild
  obtain ⟨r, hr, hsize⟩ := List.mem_map.mp hmem
  rw [← hsize]
  exact hsizes d hd r hr

/-- There is room for all edges of a cut set, if they are known. -/
theorem room_of_flattenedEdges {c : Config} {axes : List Axis} {cuts : CutSet Axis}
    (h : (c.buildCutSet axes).outcome = .ok cuts) {lists : List (List Double)}
    (hlists : List.Forall₂ (fun t es => t.flattenedEdges = .ok es) cuts.trees lists) :
    ∀ t ∈ cuts.trees, 1 + (Node.groupedBins t.children).length ≤ Capacity.maxEntries := by
  intro t ht
  obtain ⟨i, hi⟩ := List.mem_iff_getElem?.mp ht
  obtain ⟨es, -, hes⟩ := exists_getElem?_of_forall₂ hlists.flip hi
  obtain ⟨d, -, axis, -, hrun⟩ := exists_of_mem_trees h ht
  exact Node.room_of_flattenedEdges (Node.counted_of_tryRanges hrun).base_eq hes

end Config

end Binning
