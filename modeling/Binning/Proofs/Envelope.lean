import Binning.Proofs.Gap
import Binning.Proofs.Moderate
import Binning.Proofs.Usable

/-!
# Descriptions that cannot overflow

Group sizes and numbers of bins are coordinates, and a description may have any of them. This
file gives bounds within which no calculation overflows: axes of less than `2 ^ 31` bins, and
ranges whose group sizes and numbers of bins fit 32 bits (`Binning.RangeSpec.Fits`), which may
be zero or negative, and of which there may be any number.

The numbers do not grow with the number of ranges. What a range adds to the base bins that
are covered is limited by where it ends:

* a range that has grouped bins starts after the bins that are covered and ends within its
  parent, if it is accepted, so it covers no more base bins than the parent has;
* a range without any ends with the last group that fits the axis, which is less than a group
  away from the end of the axis. So it takes back at most what it starts too late.

Hence the base bins covered by the children, and by the first few of them, are between
`-2 ^ 31` and `2 ^ 32` at any time. This is the invariant `Binning.Node.Framed`. An accepted
range preserves it (`Binning.Node.Framed.addRange`), and under it a range is accepted or
refused (`Binning.Node.Framed.settles_addRange`): the one product that is calculated before a
range can be refused is less than `2 ^ 63`. A framed tree is moderate
(`Binning.Node.Framed.moderate`), so nothing that is done with it later overflows either. The
result is `Binning.Config.buildCutSet_no_overflow`.
-/

namespace Binning

open Outcome Coordinate

/-- **The computation settles**: it ends with a value that has a property, or an error is handed
back. It does not fail in any other way. -/
def Outcome.Settles {α : Type} (P : α → Prop) (o : Outcome α) : Prop :=
  (∃ a, o = .ok a ∧ P a) ∨ ∃ cause, o = .error (.refused cause)

/-- A step that is made in two ways, and has the same value either way. -/
theorem Outcome.ite_bind_of_eq_ok {α β : Type} {p : Prop} [Decidable p] {o o' : Outcome α} {a : α}
    (h : (if p then o else o') = .ok a) (f : α → Outcome β) :
    (if p then o >>= f else o' >>= f) = f a := by
  split at h
  · next hp => rw [if_pos hp, h, ok_bind]
  · next hp => rw [if_neg hp, h, ok_bind]

/-- Step after step of a run. -/
theorem Run.settles_bind {α β : Type} {P : α → Prop} {Q : β → Prop} {r : Run α} {f : α → Run β}
    (h : Settles P r.outcome) (hf : ∀ a, P a → Settles Q (f a).outcome) :
    Settles Q (r >>= f).outcome := by
  rw [Run.outcome_bind]
  rcases h with ⟨a, ha, hP⟩ | ⟨cause, hcause⟩
  · rw [ha]
    exact hf a hP
  · rw [hcause]
    exact Or.inr ⟨cause, rfl⟩

/-- **A range whose numbers fit 32 bits.** -/
def RangeSpec.Fits (r : RangeSpec) : Prop :=
  r.size < 2 ^ 31 ∧ ∀ b, r.bins = some b → -2 ^ 31 ≤ b ∧ b < 2 ^ 31

/-- A quotient is no further from zero than the dividend, but for a divisor. -/
theorem ediv_bounds {x size : Int} (hsize : 1 ≤ size) :
    min x 0 - size ≤ x / size ∧ x / size ≤ max x 0 := by
  have hdiv := Int.ediv_mul_add_emod x size
  have hnonneg := Int.emod_nonneg x (show size ≠ 0 by omega)
  have hlt := Int.emod_lt_of_pos x (show 0 < size by omega)
  have hgroups := groups_bounds (x := x / size) hsize
  omega

namespace Grouping

/-! ### The grouping of the root -/

/-- **The grouping of a root** over an axis of `count` bins, before or after its first range. -/
structure IsFrame (count : Nat) (g : Grouping) : Prop where
  size_eq : g.size = 1
  count_eq : g.count = count
  skip_nonneg : 0 ≤ g.skip
  skip_le : g.skip ≤ 1
  low_nonneg : 0 ≤ g.low
  low_le : g.low ≤ 1
  le_high : count ≤ g.high
  high_le : g.high ≤ count + 1

/-- A remainder of one is zero or one. -/
theorem one_emod_bounds {size : Int} (hsize : 1 ≤ size) : 0 ≤ 1 % size ∧ 1 % size ≤ 1 := by
  rcases Int.le_iff_eq_or_lt.mp hsize with rfl | hlt
  · decide
  · rw [Int.emod_eq_of_lt (by decide) hlt]
    decide

namespace IsFrame

variable {count : Nat} {g : Grouping} (hg : g.IsFrame count)

include hg

theorem lower_eq : g.lower = g.low := by
  rw [lower, firstBin, if_pos hg.size_eq]

theorem upper_eq_high : g.upper = g.high := by
  rw [upper, lastBin, if_pos hg.size_eq]

theorem stop_eq : g.stop = .ok g.upper := by
  rw [stop, lastBase, if_pos hg.size_eq, hg.upper_eq_high]

/-- Up to the end of the root and of the axis is up to the end of the axis. -/
theorem lastGroup_eq (hcount : count < 2 ^ 31) (size skip : Int) :
    g.lastGroup count size skip = (count - skip) / size := by
  rw [lastGroup, hg.upper_eq_high, ofCount_of_lt (by omega), Int.min_eq_right hg.le_high]

/-- The last group within the root is calculated without an overflow. -/
theorem lastWithin_eq_ok (hcount : count < 2 ^ 31) (size : Int) {skip : Int}
    (hskip : 0 ≤ skip ∧ skip ≤ 2 ^ 31) :
    g.lastWithin count size skip = .ok (g.lastGroup count size skip) := by
  rw [hg.lastGroup_eq hcount, lastWithin, hg.stop_eq, ok_bind, hg.upper_eq_high,
    ofCount_of_lt (by omega), Int.min_eq_right hg.le_high, sub_of_inRange ⟨by omega, by omega⟩]
  rfl

/-- The grouping of a root is moderate. -/
theorem moderate (hcount : count < 2 ^ 31) : g.Moderate := by
  have hlower := hg.lower_eq
  have hupper := hg.upper_eq_high
  obtain ⟨-, -, h1, h2, h3, h4, h5, h6⟩ := hg
  exact ⟨h1, by omega, by omega, by omega, by omega, by omega⟩

end IsFrame

end Grouping

namespace Node

variable {β : Type} [BaseAxis β]

theorem isFrame_root (base : β) (hcount : BaseAxis.binCount base < 2 ^ 31) :
    (root base).grouping.IsFrame (BaseAxis.binCount base) := by
  have hof := ofCount_of_lt (n := BaseAxis.binCount base) (by omega)
  constructor
  all_goals simp only [root, hof]
  all_goals omega

/-- The first range leaves the grouping of a root. -/
theorem isFrame_rebased (base : β) (hcount : BaseAxis.binCount base < 2 ^ 31) {size : Int}
    (hsize : 1 ≤ size) :
    ((root base).grouping.rebased size).IsFrame (BaseAxis.binCount base) := by
  have hof := ofCount_of_lt (n := BaseAxis.binCount base) (by omega)
  have hmod := Grouping.one_emod_bounds hsize
  have hlow : 0 ≤ 1 / size := Int.ediv_nonneg (by decide) (by omega)
  have hlow' := (ediv_bounds (x := 1) hsize).2
  constructor
  all_goals simp only [root, Grouping.rebased, hof]
  all_goals omega

/-- The grouping of a root is rebased without an overflow. -/
theorem rebase_root_eq_ok (base : β) (hcount : BaseAxis.binCount base < 2 ^ 31) {size : Int}
    (hsize : 1 ≤ size) :
    (root base).grouping.rebase size = .ok ((root base).grouping.rebased size) := by
  have hof := ofCount_of_lt (n := BaseAxis.binCount base) (by omega)
  have hmod := Grouping.one_emod_bounds hsize
  rw [Grouping.rebase, Grouping.rebased, root, hof]
  dsimp only
  rw [sub_of_inRange ⟨by omega, by omega⟩, ok_bind, sub_of_inRange ⟨by omega, by omega⟩]
  rfl

/-! ### The invariant -/

/-- **The invariant of a root with ranges that fit**: its grouping is that of a root, and the
base bins covered by the first few of its children are bounded. -/
structure Framed (base : β) (n : Node β) : Prop extends Rooted base n where
  frame : n.grouping.IsFrame (BaseAxis.binCount base)
  leaf_eq : n.children = [] → n.grouping = (root base).grouping
  sizes : ∀ c ∈ n.children, c.grouping.size < 2 ^ 31
  covered : ∀ before after, n.children = before ++ after →
    -2 ^ 31 ≤ covered before ∧ covered before < 2 ^ 32

theorem framed_root (base : β) (hcount : BaseAxis.binCount base < 2 ^ 31) :
    Framed base (root base) where
  base_eq := rfl
  ranged := ranged_of_leaf (n := root base) rfl
  fills := by simp [root]
  frame := isFrame_root base hcount
  leaf_eq _ := rfl
  sizes := by simp [root]
  covered before after h := by
    obtain rfl : before = [] := (List.nil_eq_append_iff.mp h).1
    simp

/-! ### The next range -/

omit [BaseAxis β] in
/-- What the first range leaves over is at most one base bin. -/
theorem shift_bounds (first c : Node β) : 0 ≤ shift 1 first c ∧ shift 1 first c ≤ 1 := by
  have hmod := Grouping.one_emod_bounds first.grouping.size_pos
  unfold shift
  split
  · decide
  · exact hmod

/-- The grouping of the next range, if it can be made. -/
def upcomingRange (n : Node β) (base : β) {size : Int} (hsize : 1 ≤ size) (bins : Option Int) :
    Grouping :=
  Grouping.made (BaseAxis.binCount base) size (n.placed base size bins).skip
    (n.placed base size bins).low (some (n.placed base size bins).high) hsize

/-- **An accepted range has the next place** in its node, and its end is known. -/
theorem grown_of_appendRange {base : β} {n m : Node β} {size : Int} {bins : Option Int}
    (hbase : n.base = some base) (h : (n.appendRange size bins).outcome = .ok m) :
    ∃ hsize : 1 ≤ size, (n.upcomingRange base hsize bins).stop =
        .ok (n.upcomingRange base hsize bins).upper ∧
      m = n.grown (n.placed base size bins).parent (n.upcomingRange base hsize bins) := by
  obtain ⟨hsize, base', p, g, hbase', rfl, hg, hstop, -, -, rfl⟩ := exists_child_of_appendRange h
  obtain rfl : base = base' := Option.some.inj (hbase.symm.trans hbase')
  obtain rfl : g = n.upcomingRange base hsize bins := hg
  exact ⟨hsize, hstop, rfl⟩

section Next

variable {base : β} {n : Node β} (hn : Framed base n) (hcount : BaseAxis.binCount base < 2 ^ 31)
  {size : Int} (hsize : 1 ≤ size)

include hn

/-- The base bins that are covered by all children. -/
theorem Framed.covered_children : -2 ^ 31 ≤ Node.covered n.children ∧
    Node.covered n.children < 2 ^ 32 :=
  hn.covered n.children [] (List.append_nil _).symm

/-- The base bins that are covered by all children are counted without an overflow. -/
theorem Framed.totalWidth_children :
    totalWidth 0 n.children = .ok (Node.covered n.children) := by
  rw [totalWidth_of_bounds fun before after h => ?_, Int.zero_add]
  have := hn.covered before after h
  omega

include hsize

include hcount in
/-- The next range leaves the grouping of a root. -/
theorem Framed.placed_parent (bins : Option Int) :
    (n.placed base size bins).parent.IsFrame (BaseAxis.binCount base) := by
  unfold placed
  split
  · next hleaf =>
    rw [hn.leaf_eq (List.isEmpty_iff.mp hleaf)]
    exact isFrame_rebased base hcount hsize
  · exact hn.frame

/-- The place of the next range starts with a few bins that are skipped, and its first
grouped bin is no further away than the base bins covered. -/
theorem Framed.placed_bounds (bins : Option Int) :
    (0 ≤ (n.placed base size bins).skip ∧ (n.placed base size bins).skip ≤ size) ∧
      -2 ^ 32 - size ≤ (n.placed base size bins).low ∧
      (n.placed base size bins).low ≤ 2 ^ 32 := by
  have hcovered := hn.covered_children
  unfold placed
  split
  · next hleaf =>
    have hmod := Grouping.one_emod_bounds hsize
    have hdiv := ediv_bounds (x := 1) hsize
    simp only [hn.leaf_eq (List.isEmpty_iff.mp hleaf), Grouping.rebased, root]
    omega
  · have h1 := hn.frame.skip_nonneg
    have h2 := hn.frame.skip_le
    have hnonneg := Int.emod_nonneg (Node.covered n.children) (show size ≠ 0 by omega)
    have hlt := Int.emod_lt_of_pos (Node.covered n.children) (show 0 < size by omega)
    have hdiv := ediv_bounds (x := Node.covered n.children) hsize
    dsimp only
    omega

/-- A range with a number of bins takes no more groups than that. -/
theorem Framed.placed_extent {b : Int} (hb : b < 2 ^ 31) :
    (n.placed base size (some b)).high - (n.placed base size (some b)).low + 1 ≤ 2 ^ 31 := by
  unfold placed
  split
  · next hleaf =>
    have hdiv : 0 ≤ 1 / size := Int.ediv_nonneg (by decide) (by omega)
    simp only [hn.leaf_eq (List.isEmpty_iff.mp hleaf), Grouping.rebased, root]
    omega
  · dsimp only
    omega

/-- **Where the next range starts**: the first one a group before the root, and the others
after the base bins that are covered, perhaps with one left out. -/
theorem Framed.upcoming_lower (bins : Option Int) :
    n.children = [] ∧ (n.upcomingRange base hsize bins).lower = 2 - size ∨
      Node.covered n.children + 1 ≤ (n.upcomingRange base hsize bins).lower ∧
        (n.upcomingRange base hsize bins).lower ≤ Node.covered n.children + 2 := by
  have hplaced := hn.ranged.isPlaced base hsize bins
  cases hc : n.children with
  | nil =>
    rw [hc] at hplaced
    refine Or.inl ⟨rfl, ?_⟩
    have hlower := hplaced.lower_first
    change (n.upcomingRange base hsize bins).lower = 1 - size + 1 at hlower
    omega
  | cons first rest =>
    rw [hc] at hplaced
    right
    have hlower := hplaced.lower_later
    have hshift := shift_bounds first ⟨n.base, n.upcomingRange base hsize bins, []⟩
    change (n.upcomingRange base hsize bins).lower = _ + 1 + shift 1 first
      ⟨n.base, n.upcomingRange base hsize bins, []⟩ at hlower
    omega

/-- A range that ends with the last group of the axis ends less than a group before its end. -/
theorem Framed.upcoming_upper_of_fill {bins : Option Int}
    (hfill : (n.upcomingRange base hsize bins).high =
      (BaseAxis.binCount base - (n.placed base size bins).skip) / size) :
    BaseAxis.binCount base - size ≤ (n.upcomingRange base hsize bins).upper ∧
      (n.upcomingRange base hsize bins).upper ≤ BaseAxis.binCount base := by
  have hskip := (hn.placed_bounds hsize bins).1
  have hupper : (n.upcomingRange base hsize bins).upper =
      if size = 1 then (n.upcomingRange base hsize bins).high
      else (n.upcomingRange base hsize bins).high * size + (n.placed base size bins).skip := rfl
  rw [hupper, hfill]
  split
  · next hone =>
    subst hone
    rw [Int.ediv_one]
    omega
  · have hdiv := Int.ediv_mul_add_emod
      (BaseAxis.binCount base - (n.placed base size bins).skip) size
    have hnonneg := Int.emod_nonneg
      (BaseAxis.binCount base - (n.placed base size bins).skip) (show size ≠ 0 by omega)
    have hlt := Int.emod_lt_of_pos
      (BaseAxis.binCount base - (n.placed base size bins).skip) (show 0 < size by omega)
    omega

include hcount

/-- **How far the next range goes**: it has grouped bins, but not more than `2 ^ 31`, or it
ends with the last group that fits the axis. -/
theorem Framed.upcoming_extent {bins : Option Int} (hbins : ∀ b, bins = some b → b < 2 ^ 31) :
    (0 ≤ (n.upcomingRange base hsize bins).bins ∧
      (n.upcomingRange base hsize bins).bins ≤ size * 2 ^ 31) ∨
    (BaseAxis.binCount base - size ≤ (n.upcomingRange base hsize bins).upper ∧
      (n.upcomingRange base hsize bins).upper ≤ BaseAxis.binCount base) := by
  have hof := ofCount_of_lt (n := BaseAxis.binCount base) (by omega)
  have hhigh : (n.upcomingRange base hsize bins).high =
      if (n.placed base size bins).low ≤ (n.placed base size bins).high then
        (n.placed base size bins).high
      else (ofCount (BaseAxis.binCount base) - (n.placed base size bins).skip) / size := rfl
  by_cases hle : (n.placed base size bins).low ≤ (n.placed base size bins).high
  · rw [if_pos hle] at hhigh
    cases bins with
    | none =>
      -- Without a number of bins the range runs to the end of the axis.
      refine Or.inr (hn.upcoming_upper_of_fill hsize ?_)
      have hparent := hn.placed_parent hcount hsize none
      rw [hhigh, ← hparent.lastGroup_eq hcount]
      unfold placed
      split <;> rfl
    | some b =>
      have hrange : (n.upcomingRange base hsize (some b)).bins =
          size * ((n.placed base size (some b)).high - (n.placed base size (some b)).low + 1) := by
        rw [← hhigh]
        rfl
      rw [hrange]
      exact Or.inl ⟨Int.mul_nonneg (by omega) (by omega),
        Int.mul_le_mul_of_nonneg_left (hn.placed_extent hsize (hbins b rfl)) (by omega)⟩
  · rw [if_neg hle, hof] at hhigh
    exact Or.inr (hn.upcoming_upper_of_fill hsize hhigh)

variable (hfits : size < 2 ^ 31)

include hfits

/-- **The base bins of the next range**, before it is accepted. -/
theorem Framed.upcoming_bounds {bins : Option Int} (hbins : ∀ b, bins = some b → b < 2 ^ 31) :
    (-2 ^ 31 ≤ (n.upcomingRange base hsize bins).upper ∧
      (n.upcomingRange base hsize bins).upper ≤ 2 ^ 62 + 2 ^ 33) ∧
    -2 ^ 31 ≤ Node.covered n.children + (n.upcomingRange base hsize bins).bins ∧
    ((n.upcomingRange base hsize bins).upper ≤ BaseAxis.binCount base + 1 →
      Node.covered n.children + (n.upcomingRange base hsize bins).bins < 2 ^ 32) := by
  have hcovered := hn.covered_children
  have hupper := (n.upcomingRange base hsize bins).upper_eq
  have hmax : size * 2 ^ 31 ≤ 2 ^ 31 * 2 ^ 31 :=
    Int.mul_le_mul_of_nonneg_right (by omega) (by decide)
  rcases hn.upcoming_lower hsize bins with ⟨hnil, hlower⟩ | hlower
  · rw [hnil, covered_nil]
    rcases hn.upcoming_extent hcount hsize hbins with hextent | hextent <;> omega
  · rcases hn.upcoming_extent hcount hsize hbins with hextent | hextent <;> omega

/-- **The place of the next range** is calculated without an overflow. -/
theorem Framed.place_eq_ok {bins : Option Int}
    (hbins : ∀ b, bins = some b → -2 ^ 31 ≤ b ∧ b < 2 ^ 31) :
    n.place base size bins = .ok (n.placed base size bins) := by
  obtain ⟨hskip, hlow⟩ := hn.placed_bounds hsize bins
  have hparent := hn.placed_parent hcount hsize bins
  have hlast : ∀ {skip : Int}, 0 ≤ skip ∧ skip ≤ 2 ^ 31 → _ := hparent.lastWithin_eq_ok hcount size
  unfold placed at hskip hlow hlast
  unfold place placed
  split
  · next hleaf =>
    rw [if_pos hleaf] at hskip hlow hlast
    dsimp only at hskip hlow hlast
    have hrebase : n.grouping.rebase size = .ok (n.grouping.rebased size) := by
      rw [hn.leaf_eq (List.isEmpty_iff.mp hleaf), rebase_root_eq_ok base hcount hsize]
    rw [hrebase, ok_bind]
    cases bins with
    | some b => rfl
    | none =>
      dsimp only
      rw [hlast ⟨by omega, by omega⟩]
      rfl
  · next hleaf =>
    rw [if_neg hleaf] at hskip hlow hlast
    dsimp only at hskip hlow hlast
    have hadd : (if n.grouping.skip = 0 then Except.ok (Node.covered n.children % size)
        else add (Node.covered n.children % size) n.grouping.skip) =
          .ok (Node.covered n.children % size + n.grouping.skip) := by
      split
      · next hzero => rw [hzero, Int.add_zero]
      · exact add_of_inRange ⟨by omega, by omega⟩
    rw [hn.totalWidth_children, ok_bind, add_of_inRange ⟨by omega, by omega⟩, ok_bind]
    dsimp only
    rw [ite_bind_of_eq_ok hadd]
    cases bins with
    | some b =>
      have hb := hbins b rfl
      dsimp only
      rw [add_of_inRange ⟨by omega, by omega⟩, ok_bind, sub_of_inRange ⟨by omega, by omega⟩]
      rfl
    | none =>
      dsimp only
      rw [hlast ⟨by omega, by omega⟩]
      rfl

/-- **A range of groups is accepted or refused**, and nothing overflows. -/
theorem Framed.appendRange_ok_or_refused {bins : Option Int}
    (hbins : ∀ b, bins = some b → -2 ^ 31 ≤ b ∧ b < 2 ^ 31) :
    (∃ m, (n.appendRange size bins).outcome = .ok m) ∨
      ∃ cause, (n.appendRange size bins).outcome = .error (.refused cause) := by
  have hskip := (hn.placed_bounds hsize bins).1
  have hof := ofCount_of_lt (n := BaseAxis.binCount base) (by omega)
  have hmake : Grouping.make (BaseAxis.binCount base) size (n.placed base size bins).skip
      (n.placed base size bins).low (some (n.placed base size bins).high) hsize =
        .ok (n.upcomingRange base hsize bins) := by
    rw [Grouping.make, Grouping.fit, hof, sub_of_inRange ⟨by omega, by omega⟩, ok_bind,
      upcomingRange, Grouping.made, hof]
    rfl
  obtain ⟨⟨hlow, hhigh⟩, -⟩ := hn.upcoming_bounds hcount hsize hfits fun b hb => (hbins b hb).2
  -- The end of the range, without the skipped bins, is the one product that is calculated.
  have hprod : InRange ((n.upcomingRange base hsize bins).high *
      (n.upcomingRange base hsize bins).size) := by
    have hskip : 0 ≤ (n.upcomingRange base hsize bins).skip ∧
      (n.upcomingRange base hsize bins).skip ≤ size := hskip
    have hupper : (n.upcomingRange base hsize bins).lastBin (n.upcomingRange base hsize bins).high =
      (n.upcomingRange base hsize bins).upper := rfl
    rw [Grouping.mul_size, hupper]
    split <;> exact ⟨by omega, by omega⟩
  have hstop : (n.upcomingRange base hsize bins).stop =
      .ok (n.upcomingRange base hsize bins).upper :=
    Grouping.lastBase_of_inRange hprod
      ⟨Int.le_trans (by decide) hlow, Int.lt_of_le_of_lt hhigh (by decide)⟩
  exact appendRange_of_known hsize hn.base_eq (hn.place_eq_ok hcount hsize hfits hbins) hmake hstop
    (hn.placed_parent hcount hsize bins).stop_eq

end Next

section Step

variable {base : β} {n : Node β} (hn : Framed base n) (hcount : BaseAxis.binCount base < 2 ^ 31)
  {r : RangeSpec} (hr : r.Fits)

include hn hcount hr

/-- **An accepted range that fits preserves the invariant.** -/
theorem Framed.addRange {m : Node β} (h : (n.addRange r).outcome = .ok m) : Framed base m := by
  have hrooted := hn.toRooted.addRange h
  obtain ⟨hsize, base', p, g, hbase, rfl, rfl, -, -, hle, rfl⟩ := exists_child_of_appendRange h
  obtain rfl : base = base' := Option.some.inj (hn.base_eq.symm.trans hbase)
  have hparent := hn.placed_parent hcount hsize r.bins
  obtain ⟨-, hlow, hhigh⟩ :=
    hn.upcoming_bounds hcount hsize hr.1 fun b hb => (hr.2 b hb).2
  refine ⟨hrooted, hparent, fun hnil => ?_, fun c hc => ?_, fun before after heq => ?_⟩
  · simp [grown] at hnil
  · rcases List.mem_append.mp hc with hc | hc
    · exact hn.sizes c hc
    · obtain rfl := List.mem_singleton.mp hc
      exact hr.1
  · rcases List.eq_nil_or_concat after with rfl | ⟨after, c, rfl⟩
    · -- All children are covered, and the new one ends within the root.
      rw [List.append_nil] at heq
      have hwithin : (n.upcomingRange base hsize r.bins).upper ≤ BaseAxis.binCount base + 1 := by
        have := hparent.high_le
        rw [hparent.upper_eq_high] at hle
        exact Int.le_trans hle this
      have hcover : Node.covered before =
          Node.covered n.children + (n.upcomingRange base hsize r.bins).bins := by
        rw [← heq, grown, covered_append, covered_cons, covered_nil, Int.add_zero]
        rfl
      exact hcover ▸ ⟨hlow, hhigh hwithin⟩
    · rw [List.concat_eq_append, ← List.append_assoc] at heq
      exact hn.covered before after (List.append_inj' heq rfl).1

/-- **A range that fits settles**, and the invariant is kept if it is accepted. -/
theorem Framed.settles_addRange : Settles (Framed base) (n.addRange r).outcome := by
  by_cases hsize : 1 ≤ r.size
  · rcases hn.appendRange_ok_or_refused hcount hsize hr.1 hr.2 with ⟨m, hm⟩ | hrefused
    · exact Or.inl ⟨m, hm, hn.addRange hcount hr hm⟩
    · exact Or.inr hrefused
  · refine Or.inr ⟨.invalidGroupSize r.size, ?_⟩
    rw [Node.addRange, appendRange, stageRange, if_neg hsize]
    rfl

end Step

/-- **A framed tree is moderate.** -/
theorem Framed.moderate {base : β} {n : Node β} (hn : Framed base n)
    (hcount : BaseAxis.binCount base < 2 ^ 31) : n.Moderate := by
  have hframe := hn.frame
  have h1 := hframe.low_nonneg
  have h2 := hframe.low_le
  have h3 := hframe.count_eq
  refine ⟨hframe.moderate hcount, ⟨by omega, by omega⟩, ⟨by omega, by omega⟩, fun c hc => ?_,
    hn.ranged.leaf⟩
  obtain ⟨before, after, heq⟩ := List.append_of_mem hc
  have hplaced := hn.ranged.placed before c after heq
  have hbefore := hn.covered before (c :: after) heq
  have hthere := hn.covered (before ++ [c]) after (by simp [heq])
  have hsize := hn.sizes c hc
  have hpos := c.grouping.size_pos
  have hnonneg := fun x => Int.emod_nonneg x (show c.grouping.size ≠ 0 by omega)
  have hlt := fun x => Int.emod_lt_of_pos x (show 0 < c.grouping.size by omega)
  cases before with
  | nil =>
    have hlower := hplaced.lower_first
    have hupper := hplaced.upper_first
    have hskip := hplaced.1
    have hmod := Grouping.one_emod_bounds hpos
    rw [List.nil_append] at hthere
    exact ⟨by omega, by omega, by omega, by omega, by omega, by omega⟩
  | cons first middle =>
    have hlower := hplaced.lower_later
    have hupper := hplaced.upper_later
    have hskip := hplaced.1
    have hshift := shift_bounds first c
    have hmod := Grouping.one_emod_bounds first.grouping.size_pos
    have h4 := hnonneg (Node.covered (first :: middle))
    have h5 := hlt (Node.covered (first :: middle))
    exact ⟨by omega, by omega, by omega, by omega, by omega, by omega⟩

end Node

/-! ### Building -/

namespace Dimension

/-- **The ranges of a dimension settle**, if they fit. -/
theorem settles_addRanges {base : Axis} (hcount : base.binCount < 2 ^ 31) {rs : List RangeSpec}
    (hrs : ∀ r ∈ rs, r.Fits) {n : Node Axis} (hn : n.Framed base) :
    Settles (Node.Framed base) (addRanges n rs).outcome := by
  induction rs generalizing n with
  | nil => exact Or.inl ⟨n, rfl, hn⟩
  | cons r rs ih =>
    rw [addRanges]
    exact Run.settles_bind (hn.settles_addRange hcount (hrs r List.mem_cons_self)) fun m hm =>
      ih (fun r' hr' => hrs r' (List.mem_cons_of_mem r hr')) hm

/-- The tree of a dimension settles, if its ranges fit. -/
theorem settles_buildTree {d : Dimension} (hd : ∀ r ∈ d.ranges, r.Fits) (index : Nat) {axis : Axis}
    (hcount : axis.binCount < 2 ^ 31) :
    Settles (fun t => t.Moderate) (d.buildTree index axis).outcome := by
  have hroot : Settles (Node.Framed axis) (Node.ofBase axis) :=
    Or.inl ⟨_, Node.ofBase_eq axis, Node.framed_root axis hcount⟩
  refine Run.settles_bind hroot fun root hroot => ?_
  refine Run.settles_bind (settles_addRanges hcount hd hroot) fun t ht => ?_
  exact Or.inl ⟨t, rfl, ht.moderate hcount⟩

end Dimension

namespace Config

/-- The trees of dimensions settle, if all ranges fit. -/
theorem settles_buildTreesFrom (index : Nat) {ds : List (Dimension × Axis)}
    (hds : ∀ d ∈ ds, (∀ r ∈ d.1.ranges, r.Fits) ∧ d.2.binCount < 2 ^ 31) :
    Settles (fun ts => ∀ t ∈ ts, Node.Moderate t) (buildTreesFrom index ds).outcome := by
  induction ds generalizing index with
  | nil => exact Or.inl ⟨[], rfl, by simp⟩
  | cons d ds ih =>
    obtain ⟨hranges, hcount⟩ := hds d List.mem_cons_self
    refine Run.settles_bind (Dimension.settles_buildTree hranges index hcount) fun t ht => ?_
    refine Run.settles_bind (ih (index + 1) fun d' hd' => hds d' (List.mem_cons_of_mem d hd'))
      fun ts hts => ?_
    exact Or.inl ⟨t :: ts, rfl, by simpa using ⟨ht, hts⟩⟩

/-- **Nothing overflows within the bounds.** For any number of dimensions over axes of less
than `2 ^ 31` bins each, and any number of ranges whose group sizes and numbers of bins fit 32
bits: the cut set is built or an error is handed back. A cut set that is built can be
validated and described, with any indentation there is room for, and its edges are known
unless a tree has more grouped bins than a list can hold. -/
theorem buildCutSet_no_overflow {c : Config} {axes : List Axis}
    (haxes : ∀ a ∈ axes, a.binCount < 2 ^ 31)
    (hranges : ∀ d ∈ c.dimensions, ∀ r ∈ d.ranges, r.Fits) :
    ((∃ cuts, (c.buildCutSet axes).outcome = .ok cuts) ∨
      ∃ cause, (c.buildCutSet axes).outcome = .error (.refused cause)) ∧
    ∀ cuts, (c.buildCutSet axes).outcome = .ok cuts →
      (∃ valid, cuts.validate.outcome = .ok valid) ∧
      ((∃ edges, cuts.flattenedEdges = .ok edges) ∨
        cuts.flattenedEdges = .error .tooLarge ∧
          ∃ t ∈ cuts.trees, Capacity.maxEntries < 1 + (Node.groupedBins t.children).length) ∧
      ∀ o : DescribeOptions, 2 * (o.indent + 3) ≤ Capacity.maxChars →
        ∃ text, cuts.describe o = .ok text := by
  have hsettles : Settles (fun cuts => ∀ t ∈ cuts.trees, Node.Moderate t)
      (c.buildCutSet axes).outcome := by
    unfold buildCutSet
    split
    · refine Run.settles_bind (settles_buildTreesFrom 0 fun d hd => ?_) fun ts hts =>
        Or.inl ⟨⟨ts⟩, rfl, hts⟩
      obtain ⟨hdim, haxis⟩ := List.of_mem_zip hd
      exact ⟨hranges d.1 hdim, haxes d.2 haxis⟩
    · exact Or.inr ⟨_, rfl⟩
  rcases hsettles with ⟨cuts, hcuts, hmoderate⟩ | ⟨cause, hcause⟩
  · refine ⟨Or.inl ⟨cuts, hcuts⟩, fun cuts' hcuts' => ?_⟩
    obtain rfl : cuts = cuts' := Except.ok.inj (hcuts.symm.trans hcuts')
    exact ⟨CutSet.known_validate hmoderate,
      CutSet.known_flattenedEdges fun t ht => (hmoderate t ht).flattens,
      fun o hroom => CutSet.known_describe hmoderate hroom⟩
  · refine ⟨Or.inr ⟨cause, hcause⟩, fun cuts hcuts => ?_⟩
    rw [hcause] at hcuts
    cases hcuts

/-- Three ranges on five bins: the first one ends in the overflow bin, the second one has no
grouped bin and takes back what the first one covered, and the third one is the first one
again. All are accepted, and what is calculated with them is known. -/
theorem buildCutSet_no_overflow_backwards : ∃ (cuts : CutSet Axis) (t : Node Axis),
    ((fiveBins [⟨1, some 6⟩, ⟨6, none⟩, ⟨1, some 6⟩]).buildCutSet [⟨fiveEdges, none⟩]).outcome =
      .ok cuts ∧
    cuts.trees = [t] ∧ Node.covered t.children = 6 ∧
    (∃ valid, cuts.validate.outcome = .ok valid) ∧ (∃ edges, cuts.flattenedEdges = .ok edges) ∧
    ∃ text, cuts.describe .full = .ok text := by
  have hbuilt : ((fiveBins [⟨1, some 6⟩, ⟨6, none⟩, ⟨1, some 6⟩]).buildCutSet
        [⟨fiveEdges, none⟩]).outcome =
      .ok ⟨[⟨some ⟨fiveEdges, none⟩, ⟨1, 0, 1, 6, 5, by decide⟩,
        [⟨some ⟨fiveEdges, none⟩, ⟨1, 0, 1, 6, 5, by decide⟩, []⟩,
          ⟨some ⟨fiveEdges, none⟩, ⟨6, 0, 2, 0, 0, by decide⟩, []⟩,
          ⟨some ⟨fiveEdges, none⟩, ⟨1, 0, 1, 6, 5, by decide⟩, []⟩]⟩]⟩ := by rfl
  have haxes : ∀ a ∈ [(⟨fiveEdges, none⟩ : Axis)], a.binCount < 2 ^ 31 := by decide
  obtain ⟨-, hcuts⟩ := buildCutSet_no_overflow haxes
    (c := fiveBins [⟨1, some 6⟩, ⟨6, none⟩, ⟨1, some 6⟩]) (by simp [fiveBins, RangeSpec.Fits])
  obtain ⟨hvalid, hedges, htext⟩ := hcuts _ hbuilt
  refine ⟨_, _, hbuilt, rfl, by rfl, hvalid, hedges.resolve_right fun hlarge => ?_,
    htext .full (by decide)⟩
  obtain ⟨-, t, ht, hcount⟩ := hlarge
  obtain rfl := List.mem_singleton.mp ht
  exact absurd hcount (by decide)

end Config

end Binning
