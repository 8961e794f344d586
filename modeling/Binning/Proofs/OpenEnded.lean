import Binning.Proofs.Envelope
import Binning.Proofs.Flattening
import Binning.Proofs.Growth

/-!
# Ranges without an end

A range without a number of bins runs to the end of its parent, or of the axis if this
comes first. Its last group is the last one that fits there, after the bins it skips.

* It never ends in the overflow bin (`Binning.Node.appendRange_open_within`). The end that is
  calculated from the parent is clipped at the axis, and the end that replaces it where it
  is below the start counts the groups that fit the axis. Both are quotients of what the skipped
  bins leave of the axis, or of less (`Binning.Grouping.lastBin_le_of_le_ediv`).
* On a root it should also leave less than a group behind. In groups it does. Groups of
  one bin are not shifted by the skipped bins, but their last one is calculated as if they
  were; so if the first range of the root has left a bin over, then the last bin of the axis is
  left behind, and only then (`Binning.Node.tryRanges_open_reaches`).

For the second the parent must not end before the axis. The invariant is
`Binning.Node.Reaching`.
-/

namespace Binning

open Outcome Coordinate

namespace Axis

/-- The upper edges of the bins of an axis, and of the underflow bin, are its edges. -/
theorem isFinite_upEdge {edges : List Double} {axis : Axis} (haxis : ofEdges edges = .ok axis)
    (hfinite : ∀ e ∈ edges, e.isFinite = true) {p : Nat} (hp : p ≤ axis.binCount) :
    (axis.upEdge p).isFinite = true := by
  obtain ⟨htwo, -, rfl⟩ := ofEdges_eq_ok.mp haxis
  have hlt : p < edges.length := by
    unfold binCount at hp
    dsimp only at hp
    omega
  have hmem := List.mem_of_getElem? (getElem?_eq_upEdge (a := ⟨edges, none⟩) hlt)
  exact hfinite _ hmem

end Axis

/-! ### Groups up to a limit -/

/-- A bin count that is too large comes out much smaller. -/
theorem Coordinate.ofCount_le {n : Nat} (h : 2 ^ 63 ≤ n) : ofCount n ≤ n - 2 ^ 64 := by
  unfold ofCount
  rw [Int.bmod_def]
  split <;> omega

namespace Grouping

/-- One bin is left over unless the groups are single bins. -/
theorem one_emod_eq_zero {size : Int} (hsize : 1 ≤ size) : 1 % size = 0 ↔ size = 1 := by
  constructor
  · intro h
    by_contra hne
    rw [Int.emod_eq_of_lt (by decide) (by omega)] at h
    exact absurd h (by decide)
  · rintro rfl
    rfl

/-- Between the last group of several bins that fits and the limit is less than a group. -/
theorem lastBin_ediv_bounds {g : Grouping} (hne : g.size ≠ 1) (limit : Int) :
    g.lastBin ((limit - g.skip) / g.size) ≤ limit ∧
      limit < g.lastBin ((limit - g.skip) / g.size) + g.size := by
  have hsize := g.size_pos
  have hdiv := Int.ediv_mul_add_emod (limit - g.skip) g.size
  have hnonneg := Int.emod_nonneg (limit - g.skip) (b := g.size) (by omega)
  have hlt := Int.emod_lt_of_pos (limit - g.skip) (b := g.size) (by omega)
  rw [lastBin, if_neg hne]
  omega

/-- A group that fits before a limit, after the skipped bins, does not end beyond it. -/
theorem lastBin_le_of_le_ediv {g : Grouping} {b limit : Int} (hskip : 0 ≤ g.skip)
    (h : b ≤ (limit - g.skip) / g.size) : g.lastBin b ≤ limit := by
  by_cases hone : g.size = 1
  · rw [hone, Int.ediv_one] at h
    rw [lastBin, if_pos hone]
    omega
  · exact (g.lastBin_mono h).trans (lastBin_ediv_bounds hone limit).1

end Grouping

namespace Node

variable {β : Type} [BaseAxis β]

/-! ### The end of a range without one -/

section Open

variable (n : Node β) (base : β) {size : Int} (hsize : 1 ≤ size)

/-- Without a number of bins a range is to end with the last group within its parent. -/
theorem placed_high_open (size : Int) :
    (n.placed base size none).high = (n.placed base size none).parent.lastGroup
      (BaseAxis.binCount base) size (n.placed base size none).skip := by
  unfold placed
  dsimp only
  split <;> rfl

/-- The end of a range without a number of bins: the last group that fits its parent, or
the last one that fits the axis. -/
theorem upcoming_high_open :
    (n.upcomingRange base hsize none).high =
        (n.placed base size none).parent.lastGroup (BaseAxis.binCount base) size
          (n.placed base size none).skip ∨
      (n.upcomingRange base hsize none).high =
        (ofCount (BaseAxis.binCount base) - (n.placed base size none).skip) / size := by
  rw [← placed_high_open]
  unfold upcomingRange Grouping.made
  dsimp only
  split
  · exact Or.inl rfl
  · exact Or.inr rfl

/-- No more groups are meant than fit the axis. -/
theorem upcoming_high_open_le : (n.upcomingRange base hsize none).high ≤
    (ofCount (BaseAxis.binCount base) - (n.placed base size none).skip) / size := by
  rcases n.upcoming_high_open base hsize with hhigh | hhigh <;> rw [hhigh]
  exact Int.ediv_le_ediv (by omega) (Int.sub_le_sub_right (Int.min_le_right _ _) _)

/-- If the parent does not end before the axis, all groups are meant that fit the axis. -/
theorem upcoming_high_open_eq
    (hreach : ofCount (BaseAxis.binCount base) ≤ (n.placed base size none).parent.upper) :
    (n.upcomingRange base hsize none).high =
      (ofCount (BaseAxis.binCount base) - (n.placed base size none).skip) / size := by
  rcases n.upcoming_high_open base hsize with hhigh | hhigh <;> rw [hhigh]
  rw [Grouping.lastGroup, Int.min_eq_right hreach]

end Open

/-! ### Not beyond the end of the axis -/

section Within

variable {base : β} {n : Node β} {size : Int} (hsize : 1 ≤ size)

include hsize

/-- No bins are skipped backwards. -/
theorem placed_skip_nonneg (hskip : 0 ≤ n.grouping.skip) (bins : Option Int) :
    0 ≤ (n.placed base size bins).skip := by
  unfold placed
  dsimp only
  split
  · exact Int.emod_nonneg _ (by omega)
  · exact Int.add_nonneg (Int.emod_nonneg _ (by omega)) hskip

/-- **No grouped bin of a range without an end** ends beyond the axis. -/
theorem upcoming_lastBin_le (hlt : BaseAxis.binCount base < 2 ^ 63) (hskip : 0 ≤ n.grouping.skip)
    {b : Int} (hb : b ≤ (n.upcomingRange base hsize none).high) :
    (n.upcomingRange base hsize none).lastBin b ≤ BaseAxis.binCount base := by
  have hfit := hb.trans (n.upcoming_high_open_le base hsize)
  rw [ofCount_of_lt hlt] at hfit
  exact Grouping.lastBin_le_of_le_ediv (placed_skip_nonneg hsize hskip none) hfit

/-- Where the first group of a range begins, apart from what it skips. -/
theorem le_upcoming_low (bins : Option Int) {p : Placement}
    (hplace : n.place base size bins = .ok p)
    (hfar : n.children = [] → -2 ^ 63 ≤ n.grouping.low - n.grouping.low % size) :
    -2 ^ 63 ≤ (n.upcomingRange base hsize bins).low * size := by
  change -2 ^ 63 ≤ (n.placed base size bins).low * size
  obtain ⟨hcovered, -⟩ := inRange_covered_of_place hplace
  unfold placed
  dsimp only
  split
  · next hleaf =>
    have hdiv := Int.ediv_mul_add_emod n.grouping.low size
    have := hfar (List.isEmpty_iff.mp hleaf)
    rw [Grouping.rebased]
    dsimp only
    omega
  · have hdiv := Int.ediv_mul_add_emod (covered n.children) size
    have hmod := Int.emod_lt_of_pos (covered n.children) (b := size) (by omega)
    rw [Int.add_mul, Int.one_mul]
    omega

end Within

/-- **A range without an end stays within the axis.** The end of its child is known and not
beyond the axis, and so are the ends of its grouped bins. Only the groups of the first range of a
node can begin too far below zero for their ends to be known. -/
theorem exists_child_of_appendRange_open {base : β} {n m : Node β} {size : Int}
    (hbase : n.base = some base) (hlt : BaseAxis.binCount base < 2 ^ 63)
    (hskip : 0 ≤ n.grouping.skip) (h : (n.appendRange size none).outcome = .ok m) :
    ∃ child : Node β, m.base = some base ∧ m.children = n.children ++ [child] ∧
      (∃ stop, child.grouping.stop = .ok stop ∧ stop ≤ BaseAxis.binCount base) ∧
      ∀ b : Int, child.grouping.low ≤ b → b ≤ child.grouping.high →
        child.grouping.lastBin b ≤ BaseAxis.binCount base ∧
        (child.grouping.lastBase b = .ok (child.grouping.lastBin b) ∨
          child.grouping.lastBase b = .error .overflow ∧ n.children = [] ∧
            n.grouping.low - n.grouping.low % size < -2 ^ 63) := by
  obtain ⟨-, base', p, -, -, -, hb, hplace, -⟩ := appendRange_eq_ok.mp h
  obtain rfl : base = base' := Option.some.inj (hbase.symm.trans hb)
  obtain ⟨hsize, hstop, rfl⟩ := grown_of_appendRange hbase h
  refine ⟨_, hbase, rfl, ⟨_, hstop, upcoming_lastBin_le hsize hlt hskip (Int.le_refl _)⟩,
    fun b hlow hhigh => ⟨upcoming_lastBin_le hsize hlt hskip hhigh, ?_⟩⟩
  by_cases hfar : n.children = [] → -2 ^ 63 ≤ n.grouping.low - n.grouping.low % size
  · exact Or.inl (Grouping.lastBase_of_stop (placed_skip_nonneg hsize hskip none)
      (le_upcoming_low hsize none hplace hfar) hstop hlow hhigh)
  · obtain ⟨hleaf, hbelow⟩ := Classical.not_imp.mp hfar
    rcases Grouping.lastBase_gives _ b with hlast | hover
    · exact Or.inl hlast
    · exact Or.inr ⟨hover, hleaf, not_le.mp hbelow⟩

/-- The edges over a range without an end are finite, if those of the axis are. -/
theorem isFinite_of_appendRange_open {axis : Axis} {n m : Node Axis} {size : Int}
    (haxis : ∀ p ≤ axis.binCount, (axis.upEdge p).isFinite = true)
    (hbase : n.base = some axis) (hlt : axis.binCount < 2 ^ 63) (hskip : 0 ≤ n.grouping.skip)
    (h : (n.appendRange size none).outcome = .ok m) :
    ∃ child : Node Axis, m.children = n.children ++ [child] ∧
      ∀ es, m.flattenedEdges = .ok es →
        ∃ front, es = front ++ (cuts (groupedBins [child])).map axis.upEdge ∧
          ∀ e ∈ (cuts (groupedBins [child])).map axis.upEdge, e.isFinite = true := by
  obtain ⟨child, hbase', hchildren, -, hwithin⟩ :=
    exists_child_of_appendRange_open hbase hlt hskip h
  refine ⟨child, hchildren, fun es hes => ?_⟩
  have hne : m.children ≠ [] := by simp [hchildren]
  obtain ⟨first, rest, hcons⟩ := List.exists_cons_of_ne_nil hne
  have hedges := eq_of_flattenedEdges hbase' hcons hes
  rw [hchildren, groupedBins_append, cuts_append, List.map_append, ← List.cons_append] at hedges
  refine ⟨_, hedges, fun e he => ?_⟩
  obtain ⟨p, hp, rfl⟩ := List.mem_map.mp he
  obtain ⟨q, hq, rfl⟩ := List.mem_map.mp hp
  obtain ⟨c, hc, hg, hlow, hhigh⟩ := mem_groupedBins.mp hq
  obtain rfl := List.mem_singleton.mp hc
  have hle := (hwithin q.2 hlow hhigh).1
  rw [hg]
  exact haxis _ (Int.toNat_le.mpr hle)

/-- **A range without an end never reaches the overflow bin**, in whatever node it is added, so
long as this skips no bins backwards. The child does not end beyond the axis, and none of its
grouped bins does. Their ends are all known but for one case: the range is the first one of a node
that starts so far below zero that its group there begins before the first coordinate. Over
ascending finite edges the upper edges that the child adds to the flattened ones are finite. -/
theorem appendRange_open_within :
    (∀ {β : Type} [BaseAxis β] {base : β} {n m : Node β} {size : Int}, n.base = some base →
      BaseAxis.binCount base < 2 ^ 63 → 0 ≤ n.grouping.skip →
      (n.appendRange size none).outcome = .ok m →
      ∃ child : Node β, m.children = n.children ++ [child] ∧
        (∃ stop, child.grouping.stop = .ok stop ∧ stop ≤ BaseAxis.binCount base) ∧
        ∀ b : Int, child.grouping.low ≤ b → b ≤ child.grouping.high →
          (∀ last, child.grouping.lastBase b = .ok last → last ≤ BaseAxis.binCount base) ∧
          ((∃ last, child.grouping.lastBase b = .ok last) ∨
            child.grouping.lastBase b = .error .overflow ∧ n.children = [] ∧
              n.grouping.low - n.grouping.low % size < -2 ^ 63)) ∧
    ∀ {edges : List Double} {axis : Axis} {n m : Node Axis} {size : Int},
      Axis.ofEdges edges = .ok axis → (∀ e ∈ edges, e.isFinite = true) → n.base = some axis →
      axis.binCount < 2 ^ 63 → 0 ≤ n.grouping.skip → (n.appendRange size none).outcome = .ok m →
      ∃ child : Node Axis, m.children = n.children ++ [child] ∧
        ∀ es, m.flattenedEdges = .ok es →
          ∃ front, es = front ++ (cuts (groupedBins [child])).map axis.upEdge ∧
            ∀ e ∈ (cuts (groupedBins [child])).map axis.upEdge, e.isFinite = true := by
  refine ⟨fun hbase hlt hskip h => ?_, fun haxis hfinite hbase hlt hskip h =>
    isFinite_of_appendRange_open (fun p hp => Axis.isFinite_upEdge haxis hfinite hp) hbase hlt
      hskip h⟩
  obtain ⟨child, -, hchildren, hstop, hwithin⟩ :=
    exists_child_of_appendRange_open hbase hlt hskip h
  refine ⟨child, hchildren, hstop, fun b hlow hhigh => ?_⟩
  obtain ⟨hle, hknown⟩ := hwithin b hlow hhigh
  refine ⟨fun last hlast => ?_, hknown.imp_left fun hlast => ⟨_, hlast⟩⟩
  rwa [(child.grouping.lastBase_gives b).eq_of_ok hlast]

/-- Three bins of width one, from `0` to `3`. -/
def threeBins : Axis :=
  ⟨[Double.zero, ⟨0x3FF0000000000000⟩, ⟨0x4000000000000000⟩, ⟨0x4008000000000000⟩], none⟩

/-- A node over three bins whose local range goes on to bin `7`. -/
def overshooting : Node Axis := ⟨some threeBins, ⟨1, 0, 1, 7, 3, Grouping.one_le_one⟩, []⟩

/-- A range of pairs in this node does not go on beyond the axis. -/
theorem appendRange_open_within_overshooting :
    ∃ m child : Node Axis, (overshooting.appendRange 2 none).outcome = .ok m ∧
      m.children = [child] ∧ (∃ stop, child.grouping.stop = .ok stop ∧ stop ≤ 3) ∧
      ∀ es, m.flattenedEdges = .ok es →
        ∃ front, es = front ++ (cuts (groupedBins [child])).map threeBins.upEdge ∧
          ∀ e ∈ (cuts (groupedBins [child])).map threeBins.upEdge, e.isFinite = true := by
  obtain ⟨m, hm⟩ : ∃ m, (overshooting.appendRange 2 none).outcome = .ok m := ⟨_, rfl⟩
  have haxis : Axis.ofEdges threeBins.edges = .ok threeBins := by decide
  have hcount : threeBins.binCount < 2 ^ 63 := by decide
  obtain ⟨child, hchildren, hstop, -⟩ := appendRange_open_within.1 rfl hcount (by decide) hm
  obtain ⟨child', hchildren', hedges⟩ :=
    appendRange_open_within.2 haxis (by decide) rfl hcount (by decide) hm
  obtain rfl := (List.cons.inj (hchildren.symm.trans hchildren')).1
  exact ⟨m, child, hm, hchildren, hstop, hedges⟩

/-! ### Up to the end of the axis -/

/-- **The invariant of a root that reaches the end of its axis**, whatever ranges it has. -/
structure Reaching (base : β) (m : Node β) : Prop extends Rooted base m where
  size_eq : m.grouping.size = 1
  reaches : ofCount (BaseAxis.binCount base) ≤ m.grouping.high

theorem reaching_root (base : β) : Reaching base (root base) where
  base_eq := rfl
  ranged := ranged_of_leaf (n := root base) rfl
  fills := by simp [root]
  size_eq := rfl
  reaches := by simp [root]

section Reaching

variable {base : β} {n m : Node β}

/-- The first range moves the end of a root by at most one bin, and not backwards. -/
theorem Reaching.placed_parent (hn : Reaching base n) {size : Int} (hsize : 1 ≤ size)
    (bins : Option Int) : (n.placed base size bins).parent.size = 1 ∧
      ofCount (BaseAxis.binCount base) ≤ (n.placed base size bins).parent.high := by
  rw [Node.placed_parent]
  split
  · next hleaf =>
    have hlow := hn.ranged.low_eq (List.isEmpty_iff.mp hleaf)
    have hmod := Grouping.one_emod_bounds hsize
    have hreach := hn.reaches
    refine ⟨hn.size_eq, ?_⟩
    rw [Grouping.rebased, hlow]
    dsimp only
    omega
  · exact ⟨hn.size_eq, hn.reaches⟩

/-- The parent of the next range does not end before the axis. -/
theorem Reaching.le_placed_upper (hn : Reaching base n) {size : Int} (hsize : 1 ≤ size) :
    ofCount (BaseAxis.binCount base) ≤ (n.placed base size none).parent.upper := by
  obtain ⟨hone, hreach⟩ := hn.placed_parent hsize none
  rwa [Grouping.upper, Grouping.lastBin, if_pos hone]

/-- An accepted range preserves the invariant. -/
theorem Reaching.addRange (hn : Reaching base n) {r : RangeSpec}
    (h : (n.addRange r).outcome = .ok m) : Reaching base m := by
  have hrooted := hn.toRooted.addRange h
  obtain ⟨hsize, -, rfl⟩ := grown_of_appendRange hn.base_eq h
  obtain ⟨hone, hreach⟩ := hn.placed_parent hsize r.bins
  exact ⟨hrooted, hone, hreach⟩

/-- Attempts preserve the invariant. -/
theorem reaching_of_tryRanges {calls accepted : List RangeSpec}
    (h : (root base).tryRanges calls = .ok (accepted, m)) : Reaching base m :=
  Run.attempts_induction (P := fun _ m => Reaching base m) (fun _ _ _ _ hs hr => hs.addRange hr) h
    [] (reaching_root base)

/-- What is left of the axis by a range in single bins: the bins that it skips. -/
theorem Reaching.upcoming_upper_one (hn : Reaching base n) :
    (n.upcomingRange base Grouping.one_le_one none).upper =
      ofCount (BaseAxis.binCount base) - (n.placed base 1 none).skip := by
  have hone : (n.upcomingRange base Grouping.one_le_one none).size = 1 := rfl
  rw [Grouping.upper, Grouping.lastBin, if_pos hone,
    n.upcoming_high_open_eq base Grouping.one_le_one (hn.le_placed_upper Grouping.one_le_one),
    Int.ediv_one]

/-- What is left of the axis by a range in groups: less than a group. -/
theorem Reaching.upcoming_upper_groups (hn : Reaching base n) {size : Int} (hsize : 1 ≤ size)
    (hne : size ≠ 1) : (n.upcomingRange base hsize none).upper ≤ ofCount (BaseAxis.binCount base) ∧
      ofCount (BaseAxis.binCount base) < (n.upcomingRange base hsize none).upper + size := by
  have hhigh := n.upcoming_high_open_eq base hsize (hn.le_placed_upper hsize)
  rw [Grouping.upper, hhigh]
  exact Grouping.lastBin_ediv_bounds (g := n.upcomingRange base hsize none) hne _

/-- At most one bin is skipped before a range in single bins: the one that the first range has
left over, unless it is in single bins itself. -/
theorem Reaching.placed_skip_one (hn : Reaching base n) (bins : Option Int) :
    0 ≤ (n.placed base 1 bins).skip ∧ (n.placed base 1 bins).skip ≤ 1 ∧
      ((n.placed base 1 bins).skip = 0 ↔ ∀ first ∈ n.sizes.head?, first = 1) := by
  cases hc : n.children with
  | nil => simp [Node.placed, isLeaf, sizes, hc, Grouping.rebased]
  | cons first rest =>
    have hskip : (n.placed base 1 bins).skip = 1 % first.grouping.size := by
      simp [Node.placed, isLeaf, hc, (hn.ranged.rebased first rest hc).1]
    have hmod := Grouping.one_emod_bounds first.grouping.size_pos
    rw [hskip]
    exact ⟨hmod.1, hmod.2, by simp [sizes, hc, Grouping.one_emod_eq_zero first.grouping.size_pos]⟩

end Reaching

/-- **How much of the axis is left behind** a range without a number of bins, on a fresh root
and after any attempts. It is less than a group exactly if the bin count is a coordinate and
either the range is in groups or the first range groups nothing. Otherwise it is one group
more at most, so long as the bin count is a coordinate. -/
theorem tryRanges_open_reaches {base : β} {n m m' : Node β} {calls accepted : List RangeSpec}
    {size : Int} (hroot : ofBase base = .ok n) (h : n.tryRanges calls = .ok (accepted, m))
    (hlt : size < 2 ^ 63) (hopen : (m.appendRange size none).outcome = .ok m') :
    ∃ child stop, m'.children = m.children ++ [child] ∧ child.grouping.size = size ∧
      child.grouping.stop = .ok stop ∧
      (BaseAxis.binCount base < stop + size ↔ BaseAxis.binCount base < 2 ^ 63 ∧
        (size ≠ 1 ∨ ∀ first ∈ accepted.head?, first.size = 1)) ∧
      (BaseAxis.binCount base < 2 ^ 63 → BaseAxis.binCount base ≤ stop + size) := by
  rw [ofBase_eq] at hroot
  obtain rfl := Except.ok.inj hroot
  have hm := reaching_of_tryRanges h
  obtain ⟨hsize, hstop, rfl⟩ := grown_of_appendRange hm.base_eq hopen
  refine ⟨_, _, rfl, rfl, hstop, ?_⟩
  have hcount := inRange_ofCount (BaseAxis.binCount base)
  have hwrap := ofCount_le (n := BaseAxis.binCount base)
  have hkeep := ofCount_of_lt (n := BaseAxis.binCount base)
  by_cases hone : size = 1
  · -- The last single bin is calculated with the skipped bins, and mapped without them.
    subst hone
    obtain ⟨hnonneg, hle, hzero⟩ := hm.placed_skip_one none
    rw [(ranged_of_tryRanges rfl h).2] at hzero
    simp only [List.head?_map, Option.mem_map, forall_exists_index, and_imp,
      forall_apply_eq_imp_iff₂] at hzero
    rw [hm.upcoming_upper_one, ← hzero]
    omega
  · obtain ⟨hle, hlt⟩ := hm.upcoming_upper_groups hsize hone
    omega

/-- Ten bins, of which the first four are a range. -/
def fourOfTen : Node UnitAxis :=
  ⟨some tenBins, ⟨1, 0, 1, 11, 10, Grouping.one_le_one⟩,
    [⟨some tenBins, ⟨1, 0, 1, 4, 10, Grouping.one_le_one⟩, []⟩]⟩

/-- Of the six bins after a range of four, a range in groups of four leaves less than a group. -/
theorem tryRanges_open_reaches_fours :
    (root tenBins).tryRanges [⟨1, some 4⟩] = .ok ([⟨1, some 4⟩], fourOfTen) ∧
    ∃ m child : Node UnitAxis, (fourOfTen.appendRange 4 none).outcome = .ok m ∧
      m.children = fourOfTen.children ++ [child] ∧
      ∃ stop, child.grouping.stop = .ok stop ∧ 10 < stop + 4 := by
  have hrun : (root tenBins).tryRanges [⟨1, some 4⟩] = .ok ([⟨1, some 4⟩], fourOfTen) := by rfl
  obtain ⟨m, hopen⟩ : ∃ m, (fourOfTen.appendRange 4 none).outcome = .ok m := ⟨_, rfl⟩
  obtain ⟨child, stop, hchildren, -, hstop, hreach, -⟩ :=
    tryRanges_open_reaches (ofBase_eq tenBins) hrun (by decide) hopen
  exact ⟨hrun, m, child, hopen, hchildren, stop, hstop,
    hreach.mpr ⟨by decide, Or.inl (by decide)⟩⟩

/-- **The last bin is left behind.** After a pair of bins on a fresh root of ten bins, the rest
is asked for in single bins, and the range ends with bin `9`. -/
theorem tryRanges_open_short : ∃ n m m' child : Node UnitAxis, ofBase tenBins = .ok n ∧
    n.tryRanges [⟨2, some 1⟩] = .ok ([⟨2, some 1⟩], m) ∧
    (m.appendRange 1 none).outcome = .ok m' ∧ m'.children = m.children ++ [child] ∧
    child.grouping.low ≤ child.grouping.high ∧ child.grouping.stop = .ok 9 ∧
    ¬ (BaseAxis.binCount tenBins : Int) < 9 + 1 :=
  ⟨_, _, _, ⟨some tenBins, ⟨1, 1, 5, 9, 9, Grouping.one_le_one⟩, []⟩, ofBase_eq tenBins, by rfl,
    by rfl, rfl, by decide, by rfl, by decide⟩

end Node

end Binning
