import Binning.Axis.Basic
import Binning.Proofs.Outcome
import Mathlib.Data.List.Sort

/-!
# Finding bins

An axis finds the bin of a number by a binary search over its edges, in the total
order of bit patterns. On ascending edges the search counts: an edge comes before the
result exactly if it is not above the number (`Binning.Axis.lt_countNotAbove_iff`).
What `Binning.Axis.findBin` answers is thereby known as soon as it is known which
edges the answer lies beyond (`Binning.Axis.lt_findBin_iff`).

The second half is about two axes. An axis is *cut* from another one if its edges are
those at some ascending positions, the first edge among them. Then a number lies
beyond edge `j` of the one exactly if it lies beyond the edge at position `j` of the
other (`Binning.Axis.lt_findBin_cut_iff`): searching the coarse edges is searching the
fine ones and counting the positions passed.
-/

namespace Binning

/-! ### The two orders of doubles -/

namespace Double

theorem lt_trans {x y z : Double} (hxy : x < y) (hyz : y < z) : x < z :=
  ⟨hxy.1, hyz.2.1, Int.lt_trans hxy.2.2 hyz.2.2⟩

instance : IsTrans Double (· < ·) := ⟨fun _ _ _ => lt_trans⟩

/-- What is below in the numeric order is below in the total order. -/
theorem totalRank_lt_of_lt {x y : Double} (h : x < y) : x.totalRank < y.totalRank := by
  obtain ⟨-, -, hrank⟩ := h
  rw [rank, rank] at hrank
  rw [totalRank, totalRank]
  -- Only a negative number below a positive one changes its distance, and it grows.
  rcases Bool.eq_false_or_eq_true x.negative with hx | hx <;>
    rcases Bool.eq_false_or_eq_true y.negative with hy | hy <;>
    simp only [hx, hy, Bool.false_eq_true, ↓reduceIte] at hrank ⊢ <;> omega

end Double

namespace Axis

/-! ### Ascending edges -/

/-- Edges are ascending if each is below all later ones. -/
theorem ascending_iff_pairwise {edges : List Double} :
    ascending edges = true ↔ edges.Pairwise (· < ·) := by
  rw [← List.isChain_iff_pairwise]
  induction edges with
  | nil => simp [ascending]
  | cons e rest ih =>
    cases rest with
    | nil => simp [ascending]
    | cons e' rest => simp [ascending, ih]

/-- **The axis of edges**: there are at least two of them, and they are ascending. -/
theorem ofEdges_eq_ok {edges : List Double} {a : Axis} :
    ofEdges edges = .ok a ↔ 2 ≤ edges.length ∧ edges.Pairwise (· < ·) ∧ a = ⟨edges, none⟩ := by
  rw [ofEdges, ← ascending_iff_pairwise]
  by_cases hlen : edges.length < 2
  · simp [hlen]
  · by_cases hasc : ascending edges = true
    · simp [hlen, hasc, eq_comm]
      omega
    · simp [hlen, hasc]

/-- The axis of bins of equal width: there is at least one. -/
theorem uniform_eq_ok {bins : Nat} {low high : Double} {a : Axis}
    (h : uniform bins low high = .ok a) : 1 ≤ bins ∧ a = ⟨uniformEdges bins low high, none⟩ := by
  rw [uniform] at h
  split at h
  · cases h
  · next hbins =>
    split at h
    · obtain ⟨_, -, h⟩ := Outcome.bind_eq_ok.mp h
      exact ⟨Nat.one_le_iff_ne_zero.mpr hbins, (Outcome.pure_eq_ok.mp h).symm⟩
    · cases h

/-- The axis with labels: there is one for each bin. -/
theorem withLabels_eq_ok {a b : Axis} {ls : List String} :
    a.withLabels ls = .ok b ↔ ls.length = a.binCount ∧ b = ⟨a.edges, some ls⟩ := by
  rw [withLabels]
  split
  · next hlen => exact ⟨fun h => ⟨hlen, (Except.ok.inj h).symm⟩, fun h => congrArg _ h.2.symm⟩
  · next hlen => exact ⟨nofun, fun h => absurd h.1 hlen⟩

/-! ### The search -/

/-- There is an edge number `i`, and it is not above `x`. -/
def NotAbove (edges : List Double) (x : Double) (i : Nat) : Prop :=
  ∃ e ∈ edges[i]?, e.totalRank ≤ x.totalRank

theorem notAbove_iff_getD {edges : List Double} {x : Double} {i : Nat} (hi : i < edges.length) :
    NotAbove edges x i ↔ (edges.getD i Double.infinity).totalRank ≤ x.totalRank := by
  simp [NotAbove, hi]

theorem NotAbove.lt_length {edges : List Double} {x : Double} {i : Nat}
    (h : NotAbove edges x i) : i < edges.length := by
  obtain ⟨e, he, -⟩ := h
  exact (List.getElem?_eq_some_iff.mp he).1

/-- Edges before one that is not above are not above. -/
theorem NotAbove.of_le {edges : List Double} (hasc : edges.Pairwise (· < ·)) {x : Double}
    {i j : Nat} (hij : i ≤ j) (h : NotAbove edges x j) : NotAbove edges x i := by
  obtain ⟨e, he, hle⟩ := h
  obtain ⟨hj, rfl⟩ := List.getElem?_eq_some_iff.mp he
  have hi : i < edges.length := Nat.lt_of_le_of_lt hij hj
  refine ⟨edges[i], List.getElem?_eq_getElem hi, ?_⟩
  rcases Nat.eq_or_lt_of_le hij with rfl | hlt
  · exact hle
  · have hbelow := Double.totalRank_lt_of_lt (List.pairwise_iff_getElem.mp hasc i j hi hj hlt)
    exact Int.le_trans (Int.le_of_lt hbelow) hle

/-- **The invariant of the search**: there is something left, every edge after it is
above the number, and the first edge left is not, unless nothing has been skipped. -/
structure Narrowed (edges : List Double) (x : Double) (base size : Nat) : Prop where
  size_pos : 1 ≤ size
  within : base + size ≤ edges.length
  skipped : base = 0 ∨ NotAbove edges x base
  above : ∀ i, base + size ≤ i → ¬NotAbove edges x i

/-- **One step of the search**, at the edge in the middle. -/
theorem Narrowed.step {edges : List Double} (hasc : edges.Pairwise (· < ·)) {x : Double}
    {base size : Nat} (h : Narrowed edges x base size) (hsize : 1 < size) :
    Narrowed edges x
      (if x.totalRank < (edges.getD (base + size / 2) Double.infinity).totalRank then base
        else base + size / 2)
      (size - size / 2) := by
  obtain ⟨-, hwithin, hskipped, habove⟩ := h
  have hmid : base + size / 2 < edges.length := by omega
  by_cases hcmp : x.totalRank < (edges.getD (base + size / 2) Double.infinity).totalRank
  -- The edge in the middle is above the number, and so are all edges after it.
  · rw [if_pos hcmp]
    refine ⟨by omega, by omega, hskipped, fun i hi hnot => ?_⟩
    have hmidnot := hnot.of_le hasc (show base + size / 2 ≤ i by omega)
    rw [notAbove_iff_getD hmid] at hmidnot
    omega
  · rw [if_neg hcmp]
    refine ⟨by omega, by omega, Or.inr ?_, fun i hi => habove i (by omega)⟩
    rw [notAbove_iff_getD hmid]
    omega

/-- **The whole search** leaves a single edge. -/
theorem narrowed_lastNotAbove {edges : List Double} (hasc : edges.Pairwise (· < ·)) {x : Double}
    {fuel base size : Nat} (h : Narrowed edges x base size) (hfuel : size ≤ fuel + 1) :
    Narrowed edges x (lastNotAbove edges x fuel base size) 1 := by
  induction fuel generalizing base size with
  | zero =>
    obtain rfl : size = 1 := Nat.le_antisymm hfuel h.size_pos
    exact h
  | succ fuel ih =>
    rw [lastNotAbove]
    split
    · next hle =>
      obtain rfl : size = 1 := Nat.le_antisymm hle h.size_pos
      exact h
    · next hlt => exact ih (h.step hasc (by omega)) (by omega)

/-- With a single edge left, the edges that are not above the number have been counted. -/
theorem Narrowed.lt_iff {edges : List Double} (hasc : edges.Pairwise (· < ·)) {x : Double}
    {base i : Nat} (h : Narrowed edges x base 1) :
    (i < if (edges.getD base Double.infinity).totalRank ≤ x.totalRank then base + 1 else base) ↔
      NotAbove edges x i := by
  have hbase := notAbove_iff_getD (x := x) (show base < edges.length from h.within)
  split
  · next hle =>
    constructor
    · intro hi
      exact (hbase.mpr hle).of_le hasc (Nat.le_of_lt_succ hi)
    · intro hnot
      by_contra hi
      exact h.above i (by omega) hnot
  · next hlt =>
    -- Nothing has been skipped, so even the first edge is above the number.
    have hzero : base = 0 := h.skipped.resolve_right fun hnot => hlt (hbase.mp hnot)
    constructor
    · intro hi
      omega
    · intro hnot
      exact absurd (hbase.mp (hnot.of_le hasc (by omega))) hlt

/-- **The search counts the edges that are not above a number.** -/
theorem lt_countNotAbove_iff {edges : List Double} (hasc : edges.Pairwise (· < ·)) {x : Double}
    {i : Nat} : i < countNotAbove edges x ↔ NotAbove edges x i := by
  cases edges with
  | nil => simp [countNotAbove, NotAbove]
  | cons e rest =>
    have hstart : Narrowed (e :: rest) x 0 (e :: rest).length := by
      refine ⟨by simp, by simp, Or.inl rfl, fun i hi hnot => ?_⟩
      have hlt := hnot.lt_length
      omega
    exact (narrowed_lastNotAbove hasc hstart (Nat.le_succ _)).lt_iff hasc

/-- **The edges that a bin lies beyond**: the bin of a number comes after edge `i` exactly
if the number is not below the axis and the edge is not above it. -/
theorem lt_findBin_iff {a : Axis} (hasc : a.edges.Pairwise (· < ·)) {x : Double} {i : Nat} :
    i < a.findBin x ↔ a.min ≤ x ∧ NotAbove a.edges x i := by
  rw [findBin]
  split
  · next hmin => simp [hmin, lt_countNotAbove_iff hasc]
  · next hmin => simp [hmin]

/-- No bin comes after the one behind the last edge. -/
theorem findBin_le_length {a : Axis} (hasc : a.edges.Pairwise (· < ·)) (x : Double) :
    a.findBin x ≤ a.edges.length := by
  by_contra hlt
  have hnot := ((lt_findBin_iff hasc).mp (Nat.lt_of_not_le hlt)).2
  exact Nat.lt_irrefl _ hnot.lt_length

/-! ### Cutting an axis -/

/-- An edge that an axis has is the upper edge of the bin before it. -/
theorem getElem?_eq_upEdge {a : Axis} {p : Nat} (hp : p < a.edges.length) :
    a.edges[p]? = some (a.upEdge p) := by
  simp [upEdge, hp]

/-- **Edges at ascending positions** are a part of all edges. -/
theorem map_upEdge_sublist {a : Axis} {cuts : List Nat} (hcuts : cuts.Pairwise (· < ·))
    (hlt : ∀ p ∈ cuts, p < a.edges.length) : (cuts.map a.upEdge).Sublist a.edges := by
  have hsub : cuts.Sublist (List.range a.edges.length) :=
    List.sublist_of_subperm_of_pairwise
      (List.subperm_of_subset hcuts.nodup fun p hp => List.mem_range.mpr (hlt p hp)) hcuts
      List.pairwise_lt_range
  have hall : (List.range a.edges.length).map a.upEdge = a.edges := by
    refine List.ext_getElem (by simp) fun p _ hp => ?_
    simp [upEdge, hp]
  rw [← hall]
  exact hsub.map a.upEdge

/-- An axis that is cut at the first edge starts where the other one does. -/
theorem min_eq_of_cut {a t : Axis} (hpos : 0 < a.edges.length) {cuts : List Nat}
    (ht : t.edges = (0 :: cuts).map a.upEdge) : t.min = a.min := by
  have hhead := getElem?_eq_upEdge hpos
  rw [← List.head?_eq_getElem?] at hhead
  rw [min, min, ht, hhead]
  rfl

/-- **Searching coarse edges.** Let an axis be cut from `a` at ascending positions, the
first edge among them. The bin of a number on it comes after edge `j` exactly if its bin on
`a` comes after the edge at position `j`. -/
theorem lt_findBin_cut_iff {a t : Axis} (hasc : a.edges.Pairwise (· < ·)) {cuts : List Nat}
    (hcuts : (0 :: cuts).Pairwise (· < ·)) (hlt : ∀ p ∈ 0 :: cuts, p < a.edges.length)
    (ht : t.edges = (0 :: cuts).map a.upEdge) {x : Double} {j : Nat} :
    j < t.findBin x ↔ ∃ p ∈ (0 :: cuts)[j]?, p < a.findBin x := by
  have htasc : t.edges.Pairwise (· < ·) := by
    rw [ht]
    exact hasc.sublist (map_upEdge_sublist hcuts hlt)
  rw [lt_findBin_iff htasc, min_eq_of_cut (hlt 0 List.mem_cons_self) ht, NotAbove, ht,
    List.getElem?_map]
  constructor
  · rintro ⟨hle, e, he, hrank⟩
    obtain ⟨p, hp, rfl⟩ := Option.map_eq_some_iff.mp he
    refine ⟨p, hp, (lt_findBin_iff hasc).mpr ⟨hle, _, ?_, hrank⟩⟩
    exact getElem?_eq_upEdge (hlt p (List.mem_of_getElem? hp))
  · rintro ⟨p, hp, hbeyond⟩
    obtain ⟨hle, e, he, hrank⟩ := (lt_findBin_iff hasc).mp hbeyond
    have hedge := getElem?_eq_upEdge (hlt p (List.mem_of_getElem? hp))
    obtain rfl : e = a.upEdge p := Option.some.inj (he.symm.trans hedge)
    exact ⟨hle, _, Option.map_eq_some_iff.mpr ⟨p, hp, rfl⟩, hrank⟩

end Axis

end Binning
