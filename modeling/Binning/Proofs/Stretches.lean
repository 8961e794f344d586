import Binning.Proofs.Attempts
import Binning.Proofs.Range
import Binning.Proofs.Tiling

/-!
# Ranges that fit

A *stretch* (`Binning.Stretch`) is a range with a number of bins, neither of whose numbers
is zero. Stretches that follow a first one in single bins, and that are together no longer
than the axis, are all accepted: `Binning.Node.addRanges_laid` gives the tree that they
make in closed form. Nothing overflows on the way, since every coordinate is between zero
and the number of bins of the axis.

The tree tiles the axis from its first bin to the end of the last stretch
(`Binning.Node.tiles_laid`), in as many grouped bins as were asked for
(`Binning.Node.length_groupedBins_laid`).
-/

namespace Binning

open Outcome Coordinate

/-- A stretch of the axis: a number of groups of the same size. -/
structure Stretch where
  /-- The number of base bins in a group. -/
  size : Nat
  /-- The number of groups. -/
  bins : Nat
  size_pos : 1 ≤ size
  bins_pos : 1 ≤ bins

namespace Stretch

/-- The range that a stretch describes. -/
def spec (s : Stretch) : RangeSpec := ⟨s.size, some s.bins⟩

/-- The number of base bins of stretches. -/
def total (ss : List Stretch) : Nat := (ss.map fun s => s.size * s.bins).sum

@[simp] theorem total_nil : total [] = 0 := rfl

@[simp] theorem total_cons (s : Stretch) (ss : List Stretch) :
    total (s :: ss) = s.size * s.bins + total ss := by
  simp [total]

@[simp] theorem total_append (ss ss' : List Stretch) :
    total (ss ++ ss') = total ss + total ss' := by
  simp [total]

/-- A stretch has at least as many base bins as groups. -/
theorem bins_le (s : Stretch) : s.bins ≤ s.size * s.bins := Nat.le_mul_of_pos_left _ s.size_pos

/-- Stretches have at least as many base bins as groups. -/
theorem sum_bins_le_total (ss : List Stretch) : (ss.map bins).sum ≤ total ss := by
  induction ss with
  | nil => simp
  | cons s ss ih =>
    have := s.bins_le
    rw [List.map_cons, List.sum_cons, total_cons]
    omega

/-- **The grouping of a stretch** after `before` base bins, on an axis of `count` bins. -/
def laid (count before : Nat) (s : Stretch) : Grouping where
  size := s.size
  skip := before % s.size
  low := before / s.size + 1
  high := before / s.size + s.bins
  count := (count - before % s.size) / s.size
  size_pos := by exact_mod_cast s.size_pos

section Laid

variable (count before : Nat) (s : Stretch)

theorem laid_bins : (s.laid count before).bins = s.size * s.bins := by
  unfold Grouping.bins laid
  dsimp only
  congr 1
  omega

theorem laid_lower : (s.laid count before).lower = before + 1 := by
  unfold Grouping.lower Grouping.firstBin laid
  dsimp only
  split
  · next hone =>
    rw [hone, Int.ediv_one]
  · have hdiv := Int.ediv_mul_add_emod before s.size
    rw [Int.add_sub_cancel]
    omega

theorem laid_upper : (s.laid count before).upper = before + s.size * s.bins := by
  rw [Grouping.upper_eq, laid_lower, laid_bins]
  omega

theorem laid_skip_nonneg : 0 ≤ (s.laid count before).skip := Int.natCast_nonneg (before % s.size)

theorem laid_low_pos : 1 ≤ (s.laid count before).low := by
  have := Int.natCast_nonneg (before / s.size)
  change 1 ≤ ((before / s.size : Nat) : Int) + 1
  omega

theorem laid_low_le_high : (s.laid count before).low ≤ (s.laid count before).high := by
  have hpos := s.bins_pos
  change ((before / s.size : Nat) : Int) + 1 ≤ ((before / s.size : Nat) : Int) + s.bins
  omega

end Laid

end Stretch

namespace Node

variable {β : Type}

/-! ### Laying stretches -/

/-- The children that stretches make, after `before` base bins of an axis of `count` bins. -/
def laid (base : β) (count : Nat) : Nat → List Stretch → List (Node β)
  | _, [] => []
  | before, s :: ss =>
    ⟨some base, s.laid count before, []⟩ :: laid base count (before + s.size * s.bins) ss

theorem laid_append (base : β) (count before : Nat) (ss ss' : List Stretch) :
    laid base count before (ss ++ ss') =
      laid base count before ss ++ laid base count (before + Stretch.total ss) ss' := by
  induction ss generalizing before with
  | nil => simp [laid]
  | cons s ss ih => simp [laid, ih, Nat.add_assoc]

theorem covered_laid (base : β) (count before : Nat) (ss : List Stretch) :
    covered (laid base count before ss) = Stretch.total ss := by
  induction ss generalizing before with
  | nil => rfl
  | cons s ss ih =>
    rw [laid, covered_cons, ih, Stretch.laid_bins, Stretch.total_cons]
    push_cast
    rfl

/-- Laid children are counted forwards. -/
theorem low_le_high_of_mem_laid {base : β} {count before : Nat} {ss : List Stretch} {c : Node β}
    (hc : c ∈ laid base count before ss) : c.grouping.low ≤ c.grouping.high := by
  induction ss generalizing before with
  | nil => simp [laid] at hc
  | cons s ss ih =>
    rcases List.mem_cons.mp hc with rfl | hc
    · exact s.laid_low_le_high count before
    · exact ih hc

/-- The widths of stretches that fit are added up without an overflow. -/
theorem totalWidth_laid (base : β) (count before : Nat) {ss : List Stretch}
    (hfits : Stretch.total ss < 2 ^ 63) :
    totalWidth 0 (laid base count before ss) = .ok (Stretch.total ss) := by
  have hcovered := covered_laid base count before ss
  have hsum := totalWidth_eq_ok (fun c (hc : c ∈ laid base count before ss) =>
    low_le_high_of_mem_laid hc) (Int.le_refl 0) (by omega)
  rwa [Int.zero_add, hcovered] at hsum

/-- The grouping of a root over an axis of `count` bins after a first range in single bins. -/
def unitGrouping (count : Nat) : Grouping := ⟨1, 0, 1, count + 1, count, Grouping.one_le_one⟩

/-- The tree over an axis of `count` bins that stretches make, if the first one is in
single bins. -/
def tiled (base : β) (count : Nat) (ss : List Stretch) : Node β :=
  ⟨some base, unitGrouping count, laid base count 0 ss⟩

variable [BaseAxis β]

/-- **A stretch that has its place and fits is accepted.** -/
theorem appendRange_of_place {n : Node β} {base : β} {count : Nat} (before : Nat) {s : Stretch}
    (hbase : n.base = some base) (hcount : BaseAxis.binCount base = count)
    (hlt : count < 2 ^ 63 - 1) (hfits : before + s.size * s.bins ≤ count)
    (hplace : n.place base s.size (some s.bins) = .ok ⟨(s.laid count before).skip,
      (s.laid count before).low, (s.laid count before).high, unitGrouping count⟩) :
    (n.appendRange s.size (some s.bins)).outcome =
      .ok (n.grown (unitGrouping count) (s.laid count before)) := by
  have hskip : (s.laid count before).skip ≤ before := by
    have := Nat.mod_le before s.size
    change ((before % s.size : Nat) : Int) ≤ before
    omega
  have hskip' := s.laid_skip_nonneg count before
  have hmake : Grouping.make (BaseAxis.binCount base) s.size (s.laid count before).skip
      (s.laid count before).low (some (s.laid count before).high)
      (s.laid count before).size_pos = .ok (s.laid count before) := by
    unfold Grouping.make Grouping.fit
    rw [hcount, ofCount_of_lt (by omega), sub_of_inRange ⟨by omega, by omega⟩, ok_bind]
    simp only [s.laid_low_le_high count before, ↓reduceIte]
    rfl
  have hstop : (s.laid count before).stop = .ok (s.laid count before).upper := by
    refine Grouping.lastBase_eq_ok hskip' ?_ ?_
    · exact Int.le_trans (s.laid_low_pos count before) (s.laid_low_le_high count before)
    · change (s.laid count before).upper < 2 ^ 63
      rw [Stretch.laid_upper]
      omega
  -- The parent ends one bin after the axis, since it has been rebased by single bins.
  refine appendRange_eq_ok.mpr ⟨_, base, _, _, _, _, hbase, hplace, hmake, hstop, rfl, ?_, rfl⟩
  rw [Stretch.laid_upper]
  change (before + s.size * s.bins : Int) ≤ count + 1
  omega

/-- **The first stretch**, in single bins. It rebases the root. -/
theorem appendRange_root {base : β} {count : Nat} {s : Stretch}
    (hcount : BaseAxis.binCount base = count) (hlt : count < 2 ^ 63 - 1) (hone : s.size = 1)
    (hfits : s.size * s.bins ≤ count) :
    ((root base).appendRange s.size (some s.bins)).outcome = .ok (tiled base count [s]) := by
  refine appendRange_of_place 0 rfl hcount hlt (by omega) ?_
  have hrebase : (root base).grouping.rebase s.size = .ok (unitGrouping count) := by
    unfold root Grouping.rebase
    rw [hcount, ofCount_of_lt (by omega), hone]
    dsimp only
    rw [sub_of_inRange (by decide), ok_bind, sub_of_inRange ⟨by omega, by omega⟩, ok_bind,
      pure_eq_ok]
    rfl
  have hplace : (root base).place base s.size (some s.bins) =
      .ok ⟨0, 1, s.bins, unitGrouping count⟩ := by
    have hleaf : (root base).isLeaf = true := rfl
    rw [place]
    simp only [hleaf, ↓reduceIte, hrebase]
    rfl
  rw [hplace]
  simp [Stretch.laid, hone]

/-- **A later stretch**, after others that it fits behind. -/
theorem appendRange_tiled {base : β} {count : Nat} {done : List Stretch} {s : Stretch}
    (hcount : BaseAxis.binCount base = count) (hlt : count < 2 ^ 63 - 1) (hdone : done ≠ [])
    (hfits : Stretch.total done + s.size * s.bins ≤ count) :
    ((tiled base count done).appendRange s.size (some s.bins)).outcome =
      .ok (tiled base count (done ++ [s])) := by
  have hgrown : (tiled base count done).grown (unitGrouping count)
      (s.laid count (Stretch.total done)) = tiled base count (done ++ [s]) := by
    simp [grown, tiled, laid_append, laid]
  rw [← hgrown]
  refine appendRange_of_place (Stretch.total done) rfl hcount hlt hfits ?_
  have hleaf : (tiled base count done).isLeaf = false := by
    obtain ⟨first, rest, rfl⟩ := List.exists_cons_of_ne_nil hdone
    rfl
  have hbins := s.bins_le
  have hdiv : (0 : Int) ≤ Stretch.total done / s.size ∧
      (Stretch.total done / s.size : Int) ≤ Stretch.total done :=
    ⟨Int.ediv_nonneg (Int.natCast_nonneg _) (Int.natCast_nonneg _),
      Int.ediv_le_self _ (Int.natCast_nonneg _)⟩
  have hwidth : totalWidth 0 (tiled base count done).children =
      .ok ((Stretch.total done : Nat) : Int) := totalWidth_laid base count 0 (by omega)
  have hskip : (tiled base count done).grouping.skip = 0 := rfl
  rw [place]
  simp only [hleaf, hskip, Bool.false_eq_true, ↓reduceIte, ok_bind]
  -- Every number on the way is between zero and `count`.
  rw [hwidth, ok_bind, add_of_inRange ⟨by omega, by omega⟩, ok_bind,
    add_of_inRange ⟨by omega, by omega⟩, ok_bind, sub_of_inRange ⟨by omega, by omega⟩, ok_bind,
    pure_eq_ok]
  unfold Stretch.laid tiled
  dsimp only
  congr 1
  omega

/-- **Stretches that fit are all accepted.** The induction is on the stretches still to
come, after those in `done`. -/
theorem addRanges_tiled {base : Axis} {count : Nat} {done ss : List Stretch}
    (hcount : BaseAxis.binCount base = count) (hlt : count < 2 ^ 63 - 1) (hdone : done ≠ [])
    (hfits : Stretch.total (done ++ ss) ≤ count) :
    (Dimension.addRanges (tiled base count done) (ss.map Stretch.spec)).outcome =
      .ok (tiled base count (done ++ ss)) := by
  induction ss generalizing done with
  | nil => simp [Dimension.addRanges]
  | cons s ss ih =>
    have hstep := appendRange_tiled (s := s) hcount hlt hdone (by
      rw [Stretch.total_append, Stretch.total_cons] at hfits
      omega)
    rw [List.append_cons] at hfits ⊢
    rw [List.map_cons, Dimension.addRanges]
    exact Run.outcome_bind_eq_ok.mpr ⟨_, hstep, ih (by simp) hfits⟩

/-- **Stretches that fit make a tree**, if the first one is in single bins. -/
theorem addRanges_root {base : Axis} {count : Nat} {first : Stretch} {rest : List Stretch}
    (hcount : BaseAxis.binCount base = count) (hlt : count < 2 ^ 63 - 1) (hone : first.size = 1)
    (hfits : Stretch.total (first :: rest) ≤ count) :
    (Dimension.addRanges (root base) ((first :: rest).map Stretch.spec)).outcome =
      .ok (tiled base count (first :: rest)) := by
  have hfirst := appendRange_root hcount hlt hone (by
    rw [Stretch.total_cons] at hfits
    omega)
  rw [List.map_cons, Dimension.addRanges]
  exact Run.outcome_bind_eq_ok.mpr
    ⟨_, hfirst, addRanges_tiled hcount hlt (by simp) (by simpa using hfits)⟩

/-! ### The tiling -/

section Tiling

omit [BaseAxis β]

/-- A laid child has the grouped bins of its stretch. -/
theorem span_laid (base : β) (count before : Nat) (s : Stretch) :
    span (⟨some base, s.laid count before, []⟩ : Node β) = s.bins := by
  unfold span Coordinate.span Stretch.laid
  dsimp only
  omega

/-- The grouped bins of laid stretches are as many as were asked for. -/
theorem length_groupedBins_laid (base : β) (count before : Nat) (ss : List Stretch) :
    (groupedBins (laid base count before ss)).length = (ss.map Stretch.bins).sum := by
  induction ss generalizing before with
  | nil => rfl
  | cons s ss ih =>
    rw [laid, groupedBins_cons, List.length_append, List.length_map, List.length_range, span_laid,
      ih, List.map_cons, List.sum_cons]

/-- **Laid stretches tile** the base bins from where they start. -/
theorem tiles_laid (base : β) (count before : Nat) (ss : List Stretch) :
    Tiles before (groupedBins (laid base count before ss)) (before + Stretch.total ss : Nat) := by
  induction ss generalizing before with
  | nil => rfl
  | cons s ss ih =>
    have hlower : (s.laid count before).firstBin (s.laid count before).low - 1 = before := by
      have h : (s.laid count before).firstBin (s.laid count before).low = before + 1 :=
        s.laid_lower count before
      omega
    have hupper : (s.laid count before).firstBin ((s.laid count before).low + s.bins) - 1 =
        ((before + s.size * s.bins : Nat) : Int) := by
      have h : (s.laid count before).lastBin (s.laid count before).high =
        before + s.size * s.bins := s.laid_upper count before
      have hnext : (s.laid count before).low + s.bins = (s.laid count before).high + 1 := by
        rw [Stretch.laid]
        dsimp only
        omega
      rw [hnext, Grouping.firstBin_succ]
      omega
    have hhere := tiles_range (s.laid count before) (s.laid count before).low s.bins
    rw [hlower, hupper] at hhere
    rw [laid, groupedBins_cons, span_laid, Stretch.total_cons, ← Nat.add_assoc]
    exact hhere.append (ih (before + s.size * s.bins))

/-- Laid grouped bins are counted from one on, after skipping no negative number. -/
theorem mem_groupedBins_laid {base : β} {count before : Nat} {ss : List Stretch}
    {q : Grouping × Int} (h : q ∈ groupedBins (laid base count before ss)) :
    0 ≤ q.1.skip ∧ 1 ≤ q.2 := by
  induction ss generalizing before with
  | nil => simp [laid, groupedBins] at h
  | cons s ss ih =>
    rw [laid, groupedBins_cons] at h
    rcases List.mem_append.mp h with h | h
    · obtain ⟨i, -, rfl⟩ := List.mem_map.mp h
      have hlow := s.laid_low_pos count before
      exact ⟨s.laid_skip_nonneg count before, by dsimp only; omega⟩
    · exact ih h

end Tiling

end Node

end Binning
