import Binning.Proofs.Search

/-!
# Bins that contain their lower edge

A bin contains its lower edge and not its upper one. So every number that is compared at all has
one place on an axis: below the first edge, at or above the last one, or in exactly one bin
(`Binning.Axis.HalfOpen`).

`Binning.Axis.findBin` finds this place by two comparisons that are not the same. Whether a
number is below the axis is decided numerically, as it is for the edges when the axis is made.
The search goes by the total order of bit patterns. The two orders disagree on one pair of
numbers only: `-0.0` is numerically equal to `0.0`, but it comes before it in the total order
(`Binning.Double.totalRank_le_iff`).

So the place is found for every number on every axis, unless the number is `-0.0` and `0.0` is an
edge. Then the search stops before this edge, and the answer is one bin too low. This is
`Binning.Axis.findBin_halfOpen_iff`.
-/

namespace Binning

/-! ### Where the two orders disagree -/

namespace Double

theorem eq_zero_iff {x : Double} : x = zero ↔ x.negative = false ∧ x.magnitude = 0 := by
  constructor
  · rintro rfl
    decide
  · rintro ⟨hsign, hmag⟩
    have hsign := of_decide_eq_false hsign
    unfold magnitude at hmag
    have hbits : x.bits = 0 := UInt64.toNat_inj.mp (show x.bits.toNat = 0 by omega)
    exact congrArg mk hbits

theorem eq_neg_zero_iff {x : Double} : x = -zero ↔ x.negative = true ∧ x.magnitude = 0 := by
  constructor
  · rintro rfl
    decide
  · rintro ⟨hsign, hmag⟩
    have hsign := of_decide_eq_true hsign
    have hlt := x.bits.toNat_lt
    unfold magnitude at hmag
    have hbits : x.bits = 0x8000000000000000 :=
      UInt64.toNat_inj.mp (show x.bits.toNat = 0x8000000000000000 by omega)
    exact congrArg mk hbits

section Compared

variable {x y : Double} (hx : x.isNaN = false) (hy : y.isNaN = false)

include hx hy

theorem le_iff_rank : x ≤ y ↔ x.rank ≤ y.rank := by simp [le_def, hx, hy]

/-- Of two numbers that can be compared, one is below the other or it is not. -/
theorem not_le_iff : ¬x ≤ y ↔ y < x := by
  rw [le_iff_rank hx hy, lt_def]
  simp [hx, hy]

/-- **The total order is the numeric one, but for the zeros.** -/
theorem totalRank_le_iff : x.totalRank ≤ y.totalRank ↔ x ≤ y ∧ ¬(x = zero ∧ y = -zero) := by
  rw [le_iff_rank hx hy, eq_zero_iff, eq_neg_zero_iff, rank, rank, totalRank, totalRank]
  -- Only a positive number and a negative one can be equal in one order and not in the other.
  rcases Bool.eq_false_or_eq_true x.negative with hx | hx <;>
    rcases Bool.eq_false_or_eq_true y.negative with hy | hy <;>
    simp only [hx, hy, Bool.false_eq_true, ↓reduceIte, true_and, false_and, and_false,
      not_false_eq_true, and_true, reduceCtorEq] <;> omega

end Compared

end Double

namespace Axis

/-! ### The place of a number -/

/-- **The bin of a number is its place on the axis**, in the numeric order. -/
structure HalfOpen (a : Axis) (x : Double) : Prop where
  /-- Bin `0` is below the first edge. -/
  below : a.findBin x = 0 ↔ ∃ e ∈ a.edges[0]?, x < e
  /-- The bin after the last one is at and above the last edge. -/
  beyond : a.findBin x = a.binCount + 1 ↔ ∃ e ∈ a.edges[a.binCount]?, e ≤ x
  /-- The other bins contain their lower edge and not their upper one. -/
  within : ∀ b, 1 ≤ b → b ≤ a.binCount →
    (a.findBin x = b ↔ a.lowEdge b ≤ x ∧ x < a.upEdge b)

section Edges

variable {a : Axis} (hasc : a.edges.Pairwise (· < ·))

include hasc

/-- An edge that has a neighbour is a number. -/
theorem isNaN_of_mem (htwo : 2 ≤ a.edges.length) {e : Double} (he : e ∈ a.edges) :
    e.isNaN = false := by
  obtain ⟨i, hi, rfl⟩ := List.getElem_of_mem he
  rcases Nat.eq_zero_or_pos i with rfl | hpos
  · exact (List.pairwise_iff_getElem.mp hasc 0 1 hi htwo Nat.one_pos).1
  · exact (List.pairwise_iff_getElem.mp hasc (i - 1) i (by omega) hi (by omega)).2.1

/-- No edge is below the first one. -/
theorem min_le_of_le {x e : Double} {i : Nat} (he : a.edges[i]? = some e) (hle : e ≤ x) :
    a.min ≤ x := by
  obtain ⟨hi, rfl⟩ := List.getElem?_eq_some_iff.mp he
  have hfirst : a.min = a.edges[0] := by
    rw [min, List.head?_eq_getElem?, List.getElem?_eq_getElem (by omega)]
    rfl
  rw [hfirst]
  rcases Nat.eq_zero_or_pos i with rfl | hpos
  · exact hle
  · obtain ⟨h0, -, hrank⟩ := List.pairwise_iff_getElem.mp hasc 0 i (by omega) hi hpos
    exact ⟨h0, hle.2.1, (Int.le_of_lt hrank).trans hle.2.2⟩

variable (htwo : 2 ≤ a.edges.length) {x : Double} (hx : x.isNaN = false)

include htwo hx

/-- **The bin of a number comes after the edges that are at most this number**, unless the zeros
are confused. -/
theorem lt_findBin_iff_le (hzero : ¬(x = -Double.zero ∧ Double.zero ∈ a.edges)) {i : Nat} :
    i < a.findBin x ↔ ∃ e ∈ a.edges[i]?, e ≤ x := by
  rw [lt_findBin_iff hasc]
  constructor
  · rintro ⟨-, e, he, hrank⟩
    have hnum := isNaN_of_mem hasc htwo (List.mem_of_getElem? he)
    exact ⟨e, he, ((Double.totalRank_le_iff hnum hx).mp hrank).1⟩
  · rintro ⟨e, he, hle⟩
    have hnum := isNaN_of_mem hasc htwo (List.mem_of_getElem? he)
    refine ⟨min_le_of_le hasc he hle, e, he, (Double.totalRank_le_iff hnum hx).mpr ⟨hle, ?_⟩⟩
    rintro ⟨rfl, hneg⟩
    exact hzero ⟨hneg, List.mem_of_getElem? he⟩

/-- A number is at most an edge or above it. -/
theorem not_exists_le_iff {i : Nat} (hi : i < a.edges.length) :
    (¬∃ e ∈ a.edges[i]?, e ≤ x) ↔ ∃ e ∈ a.edges[i]?, x < e := by
  have hnum := isNaN_of_mem hasc htwo (List.getElem_mem hi)
  simp only [List.getElem?_eq_getElem hi, Option.mem_some_iff, exists_eq_left']
  exact Double.not_le_iff hnum hx

/-- If the zeros are not confused, the bin of a number is its place on the axis. -/
theorem halfOpen_of_not_zero (hzero : ¬(x = -Double.zero ∧ Double.zero ∈ a.edges)) :
    a.HalfOpen x := by
  have hlt := fun {i : Nat} => lt_findBin_iff_le hasc htwo hx hzero (i := i)
  have hlen : a.binCount + 1 = a.edges.length := by
    rw [binCount]
    omega
  have hle := findBin_le_length hasc x
  refine ⟨?_, ?_, fun b hb hbn => ?_⟩
  · rw [← not_exists_le_iff hasc htwo hx (by omega), ← hlt]
    omega
  · rw [← hlt]
    omega
  · have hlow : a.lowEdge b ≤ x ↔ ∃ e ∈ a.edges[b - 1]?, e ≤ x := by
      simp [lowEdge, show b ≠ 0 by omega, show b - 1 < a.edges.length by omega]
    have hup : x < a.upEdge b ↔ ∃ e ∈ a.edges[b]?, x < e := by
      simp [upEdge, show b < a.edges.length by omega]
    rw [hlow, hup, ← not_exists_le_iff hasc htwo hx (by omega), ← hlt, ← hlt]
    omega

end Edges

/-! ### The place of negative zero -/

section Zero

variable {a : Axis} (hasc : a.edges.Pairwise (· < ·)) {j : Nat}
  (hj : a.edges[j]? = some Double.zero)

include hasc hj

/-- **Negative zero is put before the edge `0.0`**, although it is not below it. -/
theorem findBin_neg_zero : a.findBin (-Double.zero) = j := by
  obtain ⟨hlt, hedge⟩ := List.getElem?_eq_some_iff.mp hj
  have hrank : (-Double.zero).totalRank < Double.zero.totalRank := by decide
  suffices hiff : ∀ i, i < a.findBin (-Double.zero) ↔ i < j by
    have h1 := hiff j
    have h2 := hiff (a.findBin (-Double.zero))
    omega
  intro i
  rw [lt_findBin_iff hasc]
  constructor
  · rintro ⟨-, hnot⟩
    by_contra hij
    obtain ⟨e, he, hle⟩ := hnot.of_le hasc (not_lt.mp hij)
    obtain rfl : Double.zero = e := Option.some.inj (hj.symm.trans he)
    omega
  · intro hij
    -- The edge is negative, and so it is below both zeros in both orders.
    have hbelow := List.pairwise_iff_getElem.mp hasc i j (by omega) hlt hij
    rw [hedge] at hbelow
    have htotal := Double.totalRank_lt_of_lt hbelow
    have hle : a.edges[i] ≤ -Double.zero :=
      ⟨hbelow.1, by decide, Int.le_of_lt hbelow.2.2⟩
    have he : a.edges[i]? = some a.edges[i] := List.getElem?_eq_getElem _
    refine ⟨min_le_of_le hasc he hle, _, he, ?_⟩
    have hneg : (-Double.zero).totalRank = Double.zero.totalRank - 1 := by decide
    omega

/-- Before the edge `0.0` is not the place of negative zero. -/
theorem not_halfOpen_neg_zero : ¬a.HalfOpen (-Double.zero) := by
  intro h
  have hbin := findBin_neg_zero hasc hj
  obtain ⟨hlt, hedge⟩ := List.getElem?_eq_some_iff.mp hj
  have hle : Double.zero ≤ -Double.zero := by decide
  rcases Nat.lt_or_ge j a.binCount with hin | hend
  -- The edge is the lower one of a bin.
  · have hlow : a.lowEdge (j + 1) ≤ -Double.zero := by
      simpa [lowEdge, hj] using hle
    have hnext : j + 1 < a.edges.length := by
      rw [binCount] at hin
      omega
    have hup : -Double.zero < a.upEdge (j + 1) := by
      have habove := List.pairwise_iff_getElem.mp hasc j (j + 1) hlt hnext (Nat.lt_succ_self j)
      rw [hedge] at habove
      have hedge' : a.upEdge (j + 1) = a.edges[j + 1] := by simp [upEdge, hnext]
      rw [hedge']
      exact ⟨by decide, habove.2.1, habove.2.2⟩
    have := (h.within (j + 1) (Nat.le_add_left 1 j) hin).mpr ⟨hlow, hup⟩
    omega
  -- The edge is the last one.
  · have hlast : j = a.binCount := by
      rw [binCount] at hend ⊢
      omega
    have := h.beyond.mpr ⟨Double.zero, hlast ▸ hj, hle⟩
    omega

end Zero

/-- **Finding bins that are half open.** On every axis of ascending edges, the bin of a number is
its place on the axis, in the numeric order, exactly if the number is not `-0.0` or there is no
edge `0.0`. If there is one, then `-0.0` is put into the bin before it. -/
theorem findBin_halfOpen_iff {edges : List Double} {a : Axis} {x : Double}
    (h : ofEdges edges = .ok a) (hx : x.isNaN = false) :
    (a.HalfOpen x ↔ ¬(x = -Double.zero ∧ Double.zero ∈ a.edges)) ∧
      ∀ j, x = -Double.zero → a.edges[j]? = some Double.zero → a.findBin x = j := by
  obtain ⟨htwo, hasc, rfl⟩ := ofEdges_eq_ok.mp h
  refine ⟨⟨?_, halfOpen_of_not_zero hasc htwo hx⟩, ?_⟩
  · rintro hopen ⟨rfl, hmem⟩
    obtain ⟨j, hj⟩ := List.mem_iff_getElem?.mp hmem
    exact not_halfOpen_neg_zero hasc hj hopen
  · rintro j rfl hj
    exact findBin_neg_zero hasc hj

/-- The edges `-1`, `0` and `1`. -/
def aroundZero : List Double := [⟨0xBFF0000000000000⟩, Double.zero, ⟨0x3FF0000000000000⟩]

/-- Positive zero is in the bin that starts with it. -/
theorem findBin_halfOpen_zero : ∃ a : Axis, ofEdges aroundZero = .ok a ∧
    Double.zero.isNaN = false ∧ a.HalfOpen Double.zero ∧ a.findBin Double.zero = 2 := by
  have ha : ofEdges aroundZero = .ok ⟨aroundZero, none⟩ := by rfl
  exact ⟨_, ha, by rfl, (findBin_halfOpen_iff ha (by rfl)).1.mpr (by decide), by rfl⟩

/-- **Negative zero below an axis that starts at zero.** It is in bin `0`, but it is not below
the first edge. -/
theorem findBin_halfOpen_neg_zero : ∃ a : Axis,
    ofEdges [Double.zero, ⟨0x3FF0000000000000⟩] = .ok a ∧ (-Double.zero).isNaN = false ∧
    a.findBin (-Double.zero) = 0 ∧ ¬∃ e ∈ a.edges[0]?, -Double.zero < e := by
  refine ⟨⟨[Double.zero, ⟨0x3FF0000000000000⟩], none⟩, by rfl, by rfl, by rfl, ?_⟩
  rintro ⟨e, he, hlt⟩
  obtain rfl : Double.zero = e := Option.some.inj he
  exact absurd hlt (by decide)

end Axis

end Binning
