import Binning.Proofs.Growth

/-!
# How many grouped bins a range has

A range is added with the number of grouped bins that it should have, and a range that is
accepted should have that many (`Binning.Grouping.extent`). Later ranges do: they start
in some group and end as many groups further on (`Binning.Node.extent_later`).

The first range of a node starts in the group of its own size that holds the start of the
node, and this may be any group. But it ends in the group whose number is the number of
bins asked for, as if it had started in group `1`. So it has a grouped bin too many for each group
that it starts before group `1`, and one too few for each group after it; and if it
starts beyond the group in which it should end, it runs to the last group that fits the
axis (`Binning.Node.extent_first`). On a fresh root only single bins have base bin `1`
in group `1`. All larger groups have it in group `0`
(`Binning.Node.appendRange_pairs_extent`).

The result for all nodes of all trees is `Binning.Node.appendAt_range_extent`.
-/

namespace Binning

open Coordinate

namespace Grouping

/-- The number of grouped bins in the local range, negative for a range that ends more
than one grouped bin before it starts. -/
def extent (g : Grouping) : Int := g.high - g.low + 1

/-- **The extent of a first range** that should have `b` grouped bins of `size` base bins,
in a node over `count` base bins. -/
def firstExtent (g : Grouping) (count : Nat) (size b : Int) : Int :=
  if g.low / size ≤ b then b + 1 - g.low / size
  else (ofCount count - g.low % size) / size + 1 - g.low / size

/-- A first range that does not start beyond its end has the extent asked for exactly if
it starts in group `1`. -/
theorem firstExtent_eq_iff {g : Grouping} {count : Nat} {size b : Int} (hb : 1 ≤ b) :
    g.firstExtent count size b = b ↔
      g.low / size = 1 ∨ b < g.low / size ∧ g.firstExtent count size b = b := by
  constructor
  · intro h
    rcases Int.lt_or_le b (g.low / size) with hlt | hle
    · exact Or.inr ⟨hlt, h⟩
    · rw [firstExtent, if_pos hle] at h
      exact Or.inl (by omega)
  · rintro (hone | ⟨-, h⟩)
    · rw [firstExtent, if_pos (by omega)]
      omega
    · exact h

end Grouping

namespace Node

variable {β : Type} [BaseAxis β] {n : Node β} (base : β) {size b : Int} (hsize : 1 ≤ size)

/-- The grouping of the next range of `b` grouped bins, before it is accepted. -/
def proposed (n : Node β) (b : Int) : Grouping :=
  Grouping.made (BaseAxis.binCount base) size (n.placed base size (some b)).skip
    (n.placed base size (some b)).low (some (n.placed base size (some b)).high) hsize

/-- **A later range has the grouped bins asked for.** -/
theorem extent_later (hne : n.children ≠ []) (hb : 1 ≤ b) :
    (n.proposed base hsize b).extent = b := by
  have hleaf : n.isLeaf = false := by simpa [isLeaf] using hne
  have hplaced : (n.placed base size (some b)).high =
      (n.placed base size (some b)).low + b - 1 := by
    rw [placed, hleaf]
    rfl
  rw [proposed, Grouping.extent, Grouping.made]
  dsimp only
  rw [if_pos (by omega), hplaced]
  omega

/-- **A first range** starts where the node starts, and ends as if it had started in
group `1`. -/
theorem extent_first (hnil : n.children = []) :
    (n.proposed base hsize b).extent =
      n.grouping.firstExtent (BaseAxis.binCount base) size b := by
  have hleaf : n.isLeaf = true := by simp [isLeaf, hnil]
  have hplaced : (n.placed base size (some b)).low = n.grouping.low / size ∧
      (n.placed base size (some b)).high = b ∧
      (n.placed base size (some b)).skip = n.grouping.low % size := by
    rw [placed, hleaf]
    exact ⟨rfl, rfl, rfl⟩
  obtain ⟨hlow, hhigh, hskip⟩ := hplaced
  rw [proposed, Grouping.extent, Grouping.made, Grouping.firstExtent]
  dsimp only
  rw [hlow, hhigh, hskip]
  split <;> omega

/-- **How many grouped bins an accepted range has**, at any node of any tree. A node that
has children gives it the number asked for. A childless node gives it the extent of a
first range, and that is the number asked for if the node starts in group `1`, counted in
groups of the new size. It can also happen to be this number if the range should end before it
starts, and is therefore made to fill the axis. -/
theorem appendAt_range_extent {t t' : Node β} {path : List Nat} (hn : t.get? path = some n)
    (hb : 1 ≤ b) (h : (t.appendAt path (.range size (some b))).outcome = .ok t') :
    ∃ (base : β) (m child : Node β), n.base = some base ∧ t'.get? path = some m ∧
      m.children = n.children ++ [child] ∧
      (n.children ≠ [] → child.grouping.extent = b) ∧
      (n.children = [] →
        child.grouping.extent = n.grouping.firstExtent (BaseAxis.binCount base) size b) ∧
      (child.grouping.extent = b ↔ n.children ≠ [] ∨ n.grouping.low / size = 1 ∨
        b < n.grouping.low / size ∧
          n.grouping.firstExtent (BaseAxis.binCount base) size b = b) := by
  obtain ⟨m, hm, happend⟩ := get?_of_updateAt h hn
  obtain ⟨hsize, base, p, g, hbase, rfl, rfl, -, -, -, rfl⟩ := exists_child_of_appendRange happend
  have hlater : n.children ≠ [] → (n.proposed base hsize b).extent = b :=
    fun hne => extent_later base hsize hne hb
  have hfirst : n.children = [] → (n.proposed base hsize b).extent =
      n.grouping.firstExtent (BaseAxis.binCount base) size b := extent_first base hsize
  refine ⟨base, _, _, hbase, hm, rfl, hlater, hfirst, ?_⟩
  change (n.proposed base hsize b).extent = b ↔ _
  by_cases hnil : n.children = []
  · rw [hfirst hnil]
    exact (Grouping.firstExtent_eq_iff hb).trans (or_iff_right (not_not.mpr hnil)).symm
  · exact iff_of_true (hlater hnil) (Or.inl hnil)

/-- Ten bins with a single child, whose first two bins are a range of their own. -/
def dividedTen : Node UnitAxis :=
  ⟨some tenBins, ⟨1, 0, 1, 10, 10, Grouping.one_le_one⟩,
    [⟨some tenBins, ⟨1, 0, 1, 11, 10, Grouping.one_le_one⟩,
      [⟨some tenBins, ⟨1, 0, 1, 2, 10, Grouping.one_le_one⟩, []⟩]⟩]⟩

/-- Two groups of three are added to the child of ten bins, after its range of two. -/
theorem appendAt_range_extent_threes :
    (root tenBins).tryAppends [([], .child 1 0 1 none), ([0], .range 1 (some 2))] =
      .ok ([([], .child 1 0 1 none), ([0], .range 1 (some 2))], dividedTen) ∧
    ∃ t' m before child : Node UnitAxis,
      (dividedTen.appendAt [0] (.range 3 (some 2))).outcome = .ok t' ∧ t'.get? [0] = some m ∧
      m.children = [before, child] ∧ child.grouping.extent = 2 := by
  refine ⟨by rfl, ?_⟩
  have hget : dividedTen.get? [0] = some _ := rfl
  obtain ⟨t', happend⟩ : ∃ t', (dividedTen.appendAt [0] (.range 3 (some 2))).outcome = .ok t' :=
    ⟨_, rfl⟩
  obtain ⟨base, m, child, -, hm, hchildren, hlater, -⟩ :=
    appendAt_range_extent hget (by decide) happend
  exact ⟨t', m, _, child, happend, hm, hchildren, hlater (List.cons_ne_nil _ _)⟩

/-- **A grouped bin too many.** Two groups of two are asked for on a fresh root of ten bins, and
three are added. -/
theorem appendRange_pairs_extent : ∃ (n m child : Node UnitAxis), ofBase tenBins = .ok n ∧
    (n.appendRange 2 (some 2)).outcome = .ok m ∧ m.children = [child] ∧
    child.grouping.extent = 3 :=
  ⟨_, _, _, ofBase_eq tenBins, by rfl, rfl, by rfl⟩

end Node

end Binning
