import Binning.Proofs.Contiguity
import Binning.Proofs.Lookup

/-!
# Which trees imply usable edges

The edges that a tree implies should make a binning: at least two edges, all finite and each
below the next one (`Binning.Usable`). For ranges on a fresh root there are always two edges,
but two things can go wrong with them. A first range in groups begins in the underflow bin or
before it, where the lower edge is infinite. And after a first range in single bins the
root ends in the overflow bin, so that a range is accepted there, where the upper edge is
infinite.

Nothing else goes wrong. If the first range groups nothing, the children are a chain; if none
of them ends beyond the axis, none is counted backwards either, and so they tile the axis up
to where the last one ends (`Binning.Node.exists_tiles_of_isChain`). Their edges are then part
of the edges of the axis. This gives `Binning.Node.usable_iff`, for all ranges, with or
without a number of bins and whatever this number is.

The invariant is `Binning.Node.Rooted`: beside the places of all children it knows that a
child without a range of its own fills the axis, as a grouping does that is made without an
end.
-/

namespace Binning

open Outcome Coordinate

/-- **Edges that make a binning**: there are at least two, all finite and each below the
next one. -/
def Usable (es : List Double) : Prop :=
  2 ≤ es.length ∧ (∀ e ∈ es, e.isFinite = true) ∧ es.Pairwise (· < ·)

instance : DecidablePred Usable := fun _ => inferInstanceAs (Decidable (_ ∧ _ ∧ _))

/-- A part of usable edges is usable if there are two edges left. -/
theorem Usable.of_sublist {es fs : List Double} (hes : Usable es) (h : fs.Sublist es)
    (htwo : 2 ≤ fs.length) : Usable fs :=
  ⟨htwo, fun e he => hes.2.1 e (h.subset he), hes.2.2.sublist h⟩

namespace Axis

/-- The upper edge of a bin is finite only within the axis. -/
theorem lt_length_of_isFinite {a : Axis} {p : Nat} (h : (a.upEdge p).isFinite = true) :
    p < a.edges.length := by
  by_contra hlen
  rw [upEdge, List.getD_eq_getElem?_getD, List.getElem?_eq_none (not_lt.mp hlen)] at h
  exact absurd h (by decide)

end Axis

namespace Node

variable {β : Type}

/-! ### From a chain to a tiling -/

/-- The grouped bins of a node tile its base bins, if it is not counted backwards. -/
theorem tiles_span {n : Node β} (h : n.grouping.low ≤ n.grouping.high + 1) :
    Tiles (n.grouping.lower - 1)
      ((List.range n.span).map fun (i : Nat) => (n.grouping, n.grouping.low + i))
      n.grouping.upper := by
  have hnext : n.grouping.low + (n.span : Int) = n.grouping.high + 1 := by
    unfold span Coordinate.span
    omega
  have htiles := tiles_range n.grouping n.grouping.low n.span
  rw [hnext, Grouping.firstBin_succ, Int.add_sub_cancel] at htiles
  exact htiles

/-- **The grouped bins of a chain tile**, from the start of its first node to the end of
the last one, if no node is counted backwards. -/
theorem exists_tiles_of_isChain {a : Node β} {rest : List (Node β)}
    (hchain : (a :: rest).IsChain (Adjoins 1))
    (hspan : ∀ c ∈ a :: rest, c.grouping.low ≤ c.grouping.high + 1) :
    ∃ c ∈ a :: rest, Tiles (a.grouping.lower - 1) (groupedBins (a :: rest)) c.grouping.upper := by
  induction rest generalizing a with
  | nil =>
    refine ⟨a, List.mem_singleton_self a, ?_⟩
    rw [groupedBins_cons]
    exact (tiles_span (hspan a List.mem_cons_self)).append rfl
  | cons b rest ih =>
    obtain ⟨hab, hrest⟩ := List.isChain_cons_cons.mp hchain
    obtain ⟨c, hc, htiles⟩ := ih hrest fun c hc => hspan c (List.mem_cons_of_mem a hc)
    have hmeet : b.grouping.lower - 1 = a.grouping.upper := by
      unfold Adjoins at hab
      omega
    rw [hmeet] at htiles
    refine ⟨c, List.mem_cons_of_mem a hc, ?_⟩
    rw [groupedBins_cons]
    exact (tiles_span (hspan a List.mem_cons_self)).append htiles

/-- The last grouped bin of a node that is not empty. -/
theorem mem_groupedBins_high {c : Node β} {ns : List (Node β)} (hc : c ∈ ns)
    (h : c.grouping.low ≤ c.grouping.high) : (c.grouping, c.grouping.high) ∈ groupedBins ns :=
  mem_groupedBins.mpr ⟨c, hc, rfl, h, Int.le_refl _⟩

/-! ### Ranges on a fresh root -/

/-- Whole groups before a base bin fit an axis that has this base bin. -/
theorem ediv_le_sub_emod_ediv {x n size : Int} (hsize : 1 ≤ size) (h : x ≤ n) :
    x / size ≤ (n - x % size) / size := by
  have hdiv := Int.ediv_mul_add_emod x size
  exact Int.le_ediv_of_mul_le (by omega) (by omega)

/-- If the first range groups nothing, a child ends where the base bins covered so far do. -/
theorem Ranged.upper_of_unit {m first c : Node β} {rest before after : List (Node β)}
    (hm : Ranged 1 m) (hfirst : m.children = first :: rest) (hone : first.grouping.size = 1)
    (hc : m.children = before ++ c :: after) : c.grouping.upper = covered (before ++ [c]) := by
  have hplaced := hm.placed before c after hc
  cases before with
  | nil =>
    obtain rfl : c = first := (List.cons.inj (hc.symm.trans hfirst)).1
    rw [hplaced.upper_first, hone, Int.sub_self, Int.zero_add, List.nil_append]
  | cons first' middle =>
    obtain rfl : first' = first := (List.cons.inj (hc.symm.trans hfirst)).1
    rw [hplaced.upper_later, shift_of_size_eq_one hone, Int.add_zero]

section Ranges

variable [BaseAxis β]

/-- **The invariant of a root with ranges**: its children have their places, and a child that
is counted backwards or empty ends with the last group that fits the axis. -/
structure Rooted (base : β) (m : Node β) : Prop where
  base_eq : m.base = some base
  ranged : Ranged 1 m
  fills : ∀ c ∈ m.children, c.grouping.low ≤ c.grouping.high ∨
    c.grouping.high = (ofCount (BaseAxis.binCount base) - c.grouping.skip) / c.grouping.size

/-- An accepted range preserves the invariant. -/
theorem Rooted.addRange {base : β} {n m : Node β} {r : RangeSpec} (hn : Rooted base n)
    (h : (n.addRange r).outcome = .ok m) : Rooted base m := by
  have hranged := (hn.ranged.addRange h).1
  obtain ⟨hsize, base', p, g, hbase, -, rfl, -, -, -, rfl⟩ := exists_child_of_appendRange h
  obtain rfl : base = base' := Option.some.inj (hn.base_eq.symm.trans hbase)
  refine ⟨hn.base_eq, hranged, fun c hc => ?_⟩
  rcases List.mem_append.mp hc with hc | hc
  · exact hn.fills c hc
  · obtain rfl := List.mem_singleton.mp hc
    unfold Grouping.made
    dsimp only
    split
    · next hle => exact Or.inl hle
    · exact Or.inr rfl

/-- Attempts preserve the invariant. -/
theorem rooted_of_tryRanges {base : β} {m : Node β} {calls accepted : List RangeSpec}
    (h : (root base).tryRanges calls = .ok (accepted, m)) : Rooted base m := by
  refine Run.attempts_induction (P := fun _ m => Rooted base m)
    (fun _ s r s' hs hr => hs.addRange hr) h [] ⟨rfl, ranged_of_leaf (n := root base) rfl, ?_⟩
  simp [root]

section Facts

variable {base : β} {m first : Node β} {rest : List (Node β)} (hm : Rooted base m)
  (hlt : BaseAxis.binCount base < 2 ^ 63) (hchildren : m.children = first :: rest)

include hm hlt hchildren

/-- The first child is not empty. -/
theorem Rooted.first_low_le_high (hpos : 1 ≤ BaseAxis.binCount base) :
    first.grouping.low ≤ first.grouping.high := by
  obtain ⟨hskip, hlow⟩ := hm.ranged.placed [] first rest hchildren
  rcases hm.fills first (by simp [hchildren]) with hle | hhigh
  · exact hle
  · rw [hhigh, hskip, hlow, ofCount_of_lt hlt]
    exact ediv_le_sub_emod_ediv first.grouping.size_pos (by omega)

variable (hone : first.grouping.size = 1)

include hone

/-- No child is counted backwards, if none ends beyond the axis. -/
theorem Rooted.low_le_high_succ
    (hup : ∀ c ∈ m.children, c.grouping.upper ≤ BaseAxis.binCount base) :
    ∀ c ∈ m.children, c.grouping.low ≤ c.grouping.high + 1 := by
  intro c hc
  obtain ⟨before, after, hsplit⟩ := List.append_of_mem hc
  have hsize := c.grouping.size_pos
  have hplaced := hm.ranged.placed before c after hsplit
  rcases hm.fills c hc with hle | hhigh
  · omega
  rw [ofCount_of_lt hlt] at hhigh
  rcases List.eq_nil_or_concat before with rfl | ⟨before, a, rfl⟩
  · obtain rfl : c = first := (List.cons.inj (hsplit.symm.trans hchildren)).1
    obtain ⟨hskip, hlow⟩ := hplaced
    rw [hone, Int.emod_one] at hskip
    rw [hone, Int.ediv_one] at hlow
    rw [hhigh, hskip, hlow, hone, Int.ediv_one]
    omega
  · -- The child before ends within the axis, so what fits begins after it at the latest.
    rw [List.concat_eq_append] at hsplit hplaced
    have ha : m.children = before ++ a :: c :: after := by simp [hsplit]
    have hcovered := hm.ranged.upper_of_unit hchildren hone ha
    have hle := hup a (by simp [ha])
    rw [hcovered] at hle
    obtain ⟨first', middle, hcons⟩ : ∃ first' middle, before ++ [a] = first' :: middle :=
      List.exists_cons_of_ne_nil (by simp)
    rw [hcons] at hplaced hle hsplit
    obtain rfl : first' = first := (List.cons.inj (hsplit.symm.trans hchildren)).1
    obtain ⟨hskip, hlow⟩ := hplaced
    rw [hone, Int.emod_one, Int.add_zero] at hskip
    have hfit := ediv_le_sub_emod_ediv hsize hle
    rw [hhigh, hskip, hlow]
    omega

/-- If the first range groups nothing and no child ends beyond the axis, then the children
tile the axis from its first bin to where one of them ends. -/
theorem Rooted.exists_tiles
    (hup : ∀ c ∈ m.children, c.grouping.upper ≤ BaseAxis.binCount base) :
    ∃ high : Nat, high ≤ BaseAxis.binCount base ∧ Tiles 0 (groupedBins m.children) high := by
  have hchain := isChain_of_unit hm.ranged hchildren hone
  have hspan := hm.low_le_high_succ hlt hchildren hone hup
  rw [low_eq_one hm.ranged hchildren hone] at hchain
  rw [hchildren] at hchain hspan hup ⊢
  obtain ⟨c, hc, htiles⟩ := exists_tiles_of_isChain hchain hspan
  have hlower : first.grouping.lower - 1 = 0 := by
    rw [(hm.ranged.placed [] first rest hchildren).lower_first, hone]
    rfl
  rw [hlower] at htiles
  have hle := htiles.le
  have hend := hup c hc
  refine ⟨c.grouping.upper.toNat, by omega, ?_⟩
  rwa [Int.toNat_of_nonneg hle]

/-- A child that is not empty decides where the later ones end, until there is another one:
if no grouped bin ends beyond the axis, then no child does. -/
theorem Rooted.upper_le (hpos : 1 ≤ BaseAxis.binCount base)
    (hbins : ∀ q ∈ groupedBins m.children, q.1.lastBin q.2 ≤ BaseAxis.binCount base) :
    ∀ c ∈ m.children, c.grouping.upper ≤ BaseAxis.binCount base := by
  have hfull : ∀ c ∈ m.children, c.grouping.low ≤ c.grouping.high →
      c.grouping.upper ≤ BaseAxis.binCount base :=
    fun c hc hle => hbins _ (mem_groupedBins_high hc hle)
  suffices h : ∀ (before : List (Node β)) (c : Node β) (after : List (Node β)),
      m.children = before ++ c :: after → c.grouping.upper ≤ BaseAxis.binCount base by
    intro c hc
    obtain ⟨before, after, hsplit⟩ := List.append_of_mem hc
    exact h before c after hsplit
  intro before
  induction before using List.reverseRecOn with
  | nil =>
    intro c after hsplit
    obtain rfl : c = first := (List.cons.inj (hsplit.symm.trans hchildren)).1
    exact hfull c (by simp [hchildren]) (hm.first_low_le_high hlt hchildren hpos)
  | append_singleton before a ih =>
    intro c after hsplit
    have ha : m.children = before ++ a :: c :: after := by simp [hsplit]
    by_cases hle : c.grouping.low ≤ c.grouping.high
    · exact hfull c (by simp [ha]) hle
    · -- An empty child, or one that is counted backwards, ends no later than the one before.
      have hprev := ih a (c :: after) ha
      have hbins : c.grouping.bins ≤ 0 :=
        Int.mul_nonpos_of_nonneg_of_nonpos (by have := c.grouping.size_pos; omega) (by omega)
      rw [hm.ranged.upper_of_unit hchildren hone ha] at hprev
      rw [hm.ranged.upper_of_unit hchildren hone hsplit, covered_append, covered_cons, covered_nil]
      omega

end Facts

end Ranges

/-! ### Usable edges -/

section Edges

variable {axis : Axis} (huse : Usable axis.edges) (hroom : axis.edges.length ≤ Capacity.maxEntries)
  {calls accepted : List RangeSpec} {t first : Node Axis} {rest : List (Node Axis)}
  (h : (root axis).tryRanges calls = .ok (accepted, t)) (hchildren : t.children = first :: rest)
  {es : List Double} (hes : t.flattenedEdges = .ok es)

include huse hroom h hchildren hes

/-- **When the edges of a tree are usable.** On the root over any axis with usable edges, and
for any attempts of which one is accepted: the tree implies at least two edges, and they are
usable exactly if the first range groups nothing and no range ends beyond the axis. -/
theorem usable_iff : 2 ≤ es.length ∧ (Usable es ↔
    first.grouping.size = 1 ∧ ∀ c ∈ t.children, c.grouping.upper ≤ axis.binCount) := by
  have hm := rooted_of_tryRanges h
  have hedges := eq_of_flattenedEdges hm.base_eq hchildren hes
  have htwo := huse.1
  have hmax := Capacity.maxEntries_lt
  have hcount : BaseAxis.binCount axis + 1 = axis.edges.length := by
    change axis.edges.length - 1 + 1 = axis.edges.length
    omega
  have hlt : BaseAxis.binCount axis < 2 ^ 63 := by omega
  have hpos : 1 ≤ BaseAxis.binCount axis := by omega
  have hlen : 2 ≤ es.length := by
    have hfirst : first ∈ t.children := by simp [hchildren]
    have := List.length_pos_of_mem
      (mem_groupedBins_high hfirst (hm.first_low_le_high hlt hchildren hpos))
    rw [hedges, List.length_cons, List.length_map, cuts, List.length_map]
    omega
  have hlower := (hm.ranged.placed [] first rest hchildren).lower_first
  refine ⟨hlen, fun hes => ?_, ?_⟩
  · have hone : first.grouping.size = 1 := by
      by_contra hne
      have hsize := first.grouping.size_pos
      -- Groups begin in the underflow bin, and the lower edge there is infinite.
      have hbin : toBin first.grouping.lower = 0 := by
        rw [hlower, toBin]
        omega
      have hfinite :=
        hes.2.1 (BaseAxis.lowEdge axis (toBin first.grouping.lower)) (by simp [hedges])
      have hinfinite : BaseAxis.lowEdge axis 0 = -Double.infinity := rfl
      rw [hbin, hinfinite] at hfinite
      exact absurd hfinite (by decide)
    refine ⟨hone, hm.upper_le hlt hchildren hone hpos fun q hq => ?_⟩
    have hfinite : (axis.upEdge (toBin (q.1.lastBin q.2))).isFinite = true := by
      refine hes.2.1 _ ?_
      rw [hedges]
      exact List.mem_cons_of_mem _ (List.mem_map_of_mem (List.mem_map_of_mem hq))
    have hwithin := Axis.lt_length_of_isFinite hfinite
    unfold toBin at hwithin
    omega
  · rintro ⟨hone, hup⟩
    obtain ⟨high, hhigh, htiles⟩ := hm.exists_tiles hlt hchildren hone hup
    have hfirst : es = (0 :: cuts (groupedBins t.children)).map axis.upEdge := by
      rw [hedges, hlower, hone]
      rfl
    rw [hfirst] at hlen ⊢
    exact huse.of_sublist (Axis.map_upEdge_sublist (htiles.pairwise_cuts (Int.le_refl 0))
      (Axis.cut_lt_length htiles (by omega))) hlen

end Edges

end Node

end Binning
