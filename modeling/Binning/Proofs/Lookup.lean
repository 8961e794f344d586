import Binning.Proofs.Search
import Binning.Proofs.Stretches

/-!
# Searching a rebinned axis

Rebinning commutes with finding bins. Let a tree over ascending edges be made of stretches
that fit, the first one in single bins, and flatten it into another axis. Whether a number
is looked up on the new axis, or on the base axis and its base bin is then looked up among
the grouped bins of the tree, the answer is the same, and numbers outside stay outside
(`Binning.Node.findBin_flatten`).

Two facts come together. The grouped bins tile the base axis, so that the new edges are the
base edges at their ends, and searching these is counting the ends that have been passed
(`Binning.Axis.lt_findBin_cut_iff`). A base bin has passed the end of the grouped bin before
its own and not yet that of its own (`Binning.Axis.findBin_eq_of_within`).
-/

namespace Binning

open Outcome Coordinate

namespace Axis

/-! ### Looking up tiles -/

section Tiled

variable {a t : Axis} (hasc : a.edges.Pairwise (· < ·)) {bins : List (Grouping × Int)} {high : Nat}
  (h : Tiles 0 bins high) (hhigh : high < a.edges.length)

include h hhigh

/-- The cuts of a tiling within an axis are at its edges. -/
theorem cut_lt_length : ∀ p ∈ 0 :: cuts bins, p < a.edges.length := by
  intro p hp
  rcases List.mem_cons.mp hp with rfl | hp
  · exact Nat.lt_of_le_of_lt (Nat.zero_le high) hhigh
  · obtain ⟨q, hq, rfl⟩ := List.mem_map.mp hp
    have := (h.within q hq).2
    rw [toBin]
    omega

variable (ht : t.edges = (0 :: cuts bins).map a.upEdge) {x : Double}

include hasc ht

/-- The bin of a number comes after cut `j` exactly if its base bin does. -/
theorem lt_findBin_tiled_iff {j : Nat} :
    j < t.findBin x ↔ ∃ p ∈ (0 :: cuts bins)[j]?, p < a.findBin x :=
  lt_findBin_cut_iff hasc (h.pairwise_cuts (Int.le_refl 0)) (cut_lt_length h hhigh) ht

/-- What is below the base axis is below the tiles. -/
theorem findBin_eq_zero (hx : a.findBin x = 0) : t.findBin x = 0 := by
  by_contra hne
  obtain ⟨p, -, hp⟩ := (lt_findBin_tiled_iff hasc h hhigh ht).mp (Nat.pos_of_ne_zero hne)
  omega

/-- **What is in a base bin of a grouped bin is in that grouped bin.** -/
theorem findBin_eq_of_within {j : Nat} {g : Grouping} {b : Int} (hj : bins[j]? = some (g, b))
    (hfirst : g.firstBin b ≤ a.findBin x) (hlast : a.findBin x ≤ g.lastBin b) :
    t.findBin x = j + 1 := by
  have hcut : (0 :: cuts bins)[j]? = some (toBin (g.firstBin b - 1)) := h.getElem?_cuts hj
  have hnext : (0 :: cuts bins)[j + 1]? = some (toBin (g.lastBin b)) := by
    simp [cuts, hj]
  have hlow : 0 < g.firstBin b := (h.within (g, b) (List.mem_of_getElem? hj)).1
  -- The base bin has passed the cut before the grouped bin, but not the one after it.
  have hpassed : j < t.findBin x := by
    refine (lt_findBin_tiled_iff hasc h hhigh ht).mpr ⟨_, hcut, ?_⟩
    rw [toBin]
    omega
  have hahead : ¬j + 1 < t.findBin x := by
    intro hlt
    obtain ⟨p, hp, hpx⟩ := (lt_findBin_tiled_iff hasc h hhigh ht).mp hlt
    obtain rfl : p = toBin (g.lastBin b) := Option.some.inj (hp.symm.trans hnext)
    unfold toBin at hpx
    omega
  omega

/-- What is beyond the tiles is in the bin behind them. -/
theorem findBin_eq_of_lt (hx : high < a.findBin x) : t.findBin x = bins.length + 1 := by
  have hlen : (0 :: cuts bins).length = bins.length + 1 := by simp [cuts]
  have hend : (0 :: cuts bins)[bins.length]? = some high := by
    have hlast : (0 :: cuts bins).getLast? = some high := h.getLast?_cuts
    rw [List.getLast?_eq_getElem?] at hlast
    simpa [cuts] using hlast
  have hpassed : bins.length < t.findBin x :=
    (lt_findBin_tiled_iff hasc h hhigh ht).mpr ⟨high, hend, hx⟩
  have hahead : ¬bins.length + 1 < t.findBin x := by
    intro hlt
    obtain ⟨p, hp, -⟩ := (lt_findBin_tiled_iff hasc h hhigh ht).mp hlt
    have := (List.getElem?_eq_some_iff.mp hp).1
    omega
  omega

end Tiled

end Axis

namespace Node

/-! ### Flattening what has been laid -/

/-- The numbers of laid grouped bins are calculated without an overflow. -/
theorem bases_laid {base : Axis} {count : Nat} {ss : List Stretch} (hlt : Stretch.total ss < 2 ^ 63)
    {q : Grouping × Int} (hq : q ∈ groupedBins (laid base count 0 ss)) :
    q.1.firstBase q.2 = .ok (q.1.firstBin q.2) ∧ q.1.lastBase q.2 = .ok (q.1.lastBin q.2) := by
  obtain ⟨hskip, hpos⟩ := mem_groupedBins_laid hq
  have hlast := ((tiles_laid base count 0 ss).within q hq).2
  have hrange : q.1.lastBin q.2 < 2 ^ 63 := by omega
  exact ⟨Grouping.firstBase_eq_ok hskip hpos hrange, Grouping.lastBase_eq_ok hskip hpos hrange⟩

/-- **The edges of laid stretches** are those of the axis at the cuts. -/
theorem flattenedEdges_tiled (base : Axis) {first : Stretch} {rest : List Stretch}
    (hroom : base.binCount < Capacity.maxEntries)
    (hfits : Stretch.total (first :: rest) ≤ base.binCount) :
    (tiled base base.binCount (first :: rest)).flattenedEdges =
      .ok ((0 :: cuts (groupedBins (laid base base.binCount 0 (first :: rest)))).map
        base.upEdge) := by
  have hmax := Capacity.maxEntries_lt
  have hlt : Stretch.total (first :: rest) < 2 ^ 63 := by omega
  have hlen : (groupedBins (laid base base.binCount 0 (first :: rest))).length <
      Capacity.maxEntries := by
    have := Stretch.sum_bins_le_total (first :: rest)
    rw [length_groupedBins_laid]
    omega
  -- The first grouped bin starts where the first stretch does.
  have hlower : (first.laid base.binCount 0).lower = 1 := first.laid_lower base.binCount 0
  have hstart : (first.laid base.binCount 0).start = .ok (first.laid base.binCount 0).lower := by
    have hmem : (first.laid base.binCount 0, (first.laid base.binCount 0).low) ∈
        groupedBins (laid base base.binCount 0 (first :: rest)) := by
      rw [laid, groupedBins_cons, span_laid]
      exact List.mem_append_left _
        (List.mem_map.mpr ⟨0, List.mem_range.mpr first.bins_pos, by simp⟩)
    exact (bases_laid hlt hmem).1
  have hedges := flattenedEdges_eq_ok (n := tiled base base.binCount (first :: rest)) rfl rfl
    ⟨Int.natCast_nonneg _, Int.ofNat_lt.mpr hroom⟩ hstart hlen fun q hq => (bases_laid hlt hq).2
  rw [hedges]
  change Except.ok (base.lowEdge (toBin (first.laid base.binCount 0).lower) :: _) = _
  rw [hlower]
  rfl

/-- **Rebinning commutes with finding bins.** Stretches that fit an axis of ascending edges,
the first one in single bins, are all accepted, whatever the axis, as long as its edges have
room in a list at all. Flattening their tree gives any axis a part of these edges, from the
first one to the one at which the stretches end, with as many bins as were asked for. A
number that is below the base axis is below the new one, a number in a base bin of a grouped
bin is in that grouped bin, and one beyond the stretches is beyond the new axis. -/
theorem findBin_flatten {edges : List Double} {base : Axis} (hbase : Axis.ofEdges edges = .ok base)
    (hroom : edges.length ≤ Capacity.maxEntries) {first : Stretch} {rest : List Stretch}
    (hone : first.size = 1) (hfits : Stretch.total (first :: rest) ≤ base.binCount) :
    ∃ n tree, ofBase base = .ok n ∧
      (Dimension.addRanges n ((first :: rest).map Stretch.spec)).outcome = .ok tree ∧
      (groupedBins tree.children).length = ((first :: rest).map Stretch.bins).sum ∧
      ∀ target : Axis, ∃ t, (tree.flatten target).outcome = .ok t ∧
        t.edges.Sublist base.edges ∧ t.edges.Pairwise (· < ·) ∧ t.min = base.min ∧
        (∃ e, base.edges[Stretch.total (first :: rest)]? = some e ∧ t.edges.getLast? = some e) ∧
        t.binCount = ((first :: rest).map Stretch.bins).sum ∧
        ∀ x, (base.findBin x = 0 → t.findBin x = 0) ∧
          (∀ (j : Nat) (g : Grouping) (b : Int), (groupedBins tree.children)[j]? = some (g, b) →
            ∃ low high, g.firstBase b = .ok low ∧ g.lastBase b = .ok high ∧
              (low ≤ base.findBin x → base.findBin x ≤ high → t.findBin x = j + 1)) ∧
          (Stretch.total (first :: rest) < base.findBin x →
            t.findBin x = ((first :: rest).map Stretch.bins).sum + 1) := by
  obtain ⟨htwo, hasc, heq⟩ := Axis.ofEdges_eq_ok.mp hbase
  obtain rfl : edges = base.edges := by rw [heq]
  have hcount : base.binCount + 1 = base.edges.length := by
    rw [Axis.binCount]
    omega
  have hmax := Capacity.maxEntries_lt
  have hlt : Stretch.total (first :: rest) < 2 ^ 63 := by omega
  have hflat := flattenedEdges_tiled base (by omega) hfits
  have hbins := length_groupedBins_laid base base.binCount 0 (first :: rest)
  have htiles : Tiles 0 (groupedBins (laid base base.binCount 0 (first :: rest)))
      (Stretch.total (first :: rest) : Nat) := by
    have := tiles_laid base base.binCount 0 (first :: rest)
    rwa [Nat.zero_add] at this
  have hhigh : Stretch.total (first :: rest) < base.edges.length := by omega
  -- The new edges are those of the base axis at the cuts, which ascend and stay within it.
  have hpart := Axis.map_upEdge_sublist (htiles.pairwise_cuts (Int.le_refl 0))
    (Axis.cut_lt_length htiles hhigh)
  refine ⟨root base, tiled base base.binCount (first :: rest), ofBase_eq base,
    addRanges_root rfl (by omega) hone hfits, hbins,
    fun target => ⟨_, flatten_eq_ok hflat target, ?_, ?_, ?_, ?_, ?_, fun x => ⟨?_, ?_, ?_⟩⟩⟩
  · exact hpart
  · exact hasc.sublist hpart
  · exact Axis.min_eq_of_cut (by omega) rfl
  · refine ⟨_, Axis.getElem?_eq_upEdge hhigh, ?_⟩
    change ((toBin 0 :: cuts _).map base.upEdge).getLast? = _
    rw [List.getLast?_map, htiles.getLast?_cuts]
    rfl
  · rw [← hbins]
    simp [Axis.binCount, Axis.setEdges, cuts]
  · exact Axis.findBin_eq_zero hasc htiles hhigh rfl
  · intro j g b hj
    obtain ⟨hfirst, hlast⟩ := bases_laid hlt (List.mem_of_getElem? hj)
    exact ⟨_, _, hfirst, hlast, Axis.findBin_eq_of_within hasc htiles hhigh rfl hj⟩
  · intro hx
    rw [← hbins]
    exact Axis.findBin_eq_of_lt hasc htiles hhigh rfl hx

/-- Five bins of width one, from `0` to `5`. -/
def fiveUnits : Axis :=
  ⟨[⟨0⟩, ⟨0x3FF0000000000000⟩, ⟨0x4000000000000000⟩, ⟨0x4008000000000000⟩, ⟨0x4010000000000000⟩,
    ⟨0x4014000000000000⟩], none⟩

/-- The first of five bins is kept, and the next two are put together. Then `2.5` is in the
second bin, and `4.5` is beyond the last one. -/
theorem findBin_flatten_five : ∃ (n tree : Node Axis) (t : Axis), ofBase fiveUnits = .ok n ∧
    (Dimension.addRanges n [⟨1, some 1⟩, ⟨2, some 1⟩]).outcome = .ok tree ∧
    (tree.flatten ⟨[], none⟩).outcome = .ok t ∧ t.binCount = 2 ∧
    t.findBin ⟨0x4004000000000000⟩ = 2 ∧ t.findBin ⟨0x4012000000000000⟩ = 3 := by
  have hbase : Axis.ofEdges fiveUnits.edges = .ok fiveUnits := by rfl
  have hone : (⟨1, 1, by decide, by decide⟩ : Stretch).size = 1 := rfl
  have hfits : Stretch.total [⟨1, 1, by decide, by decide⟩, ⟨2, 1, by decide, by decide⟩] ≤
      fiveUnits.binCount := by decide
  obtain ⟨n, tree, hn, htree, -, hflat⟩ := findBin_flatten hbase (by decide) hone hfits
  obtain ⟨t, ht, -, -, -, -, hbins, hx⟩ := hflat ⟨[], none⟩
  refine ⟨n, tree, t, hn, htree, ht, hbins, ?_, (hx _).2.2 (by decide)⟩
  -- The second grouped bin can be read off the tree, which is known.
  obtain rfl := Except.ok.inj (hn.symm.trans (ofBase_eq _))
  obtain rfl : _ = tree := Except.ok.inj (Eq.trans (by rfl) htree)
  obtain ⟨low, high, hlow, hhigh, hin⟩ := (hx ⟨0x4004000000000000⟩).2.1 1 _ _ rfl
  obtain rfl : 2 = low := Except.ok.inj hlow
  obtain rfl : 3 = high := Except.ok.inj hhigh
  exact hin (by decide) (by decide)

end Node

end Binning
