import Binning.Proofs.OpenEnded
import Mathlib.Data.Int.Interval

/-!
# Grouped bins partition the base bins

A grouping folds all coordinates into grouped bins, those of the axis and those far below and
beyond it. Whatever the size of the groups and the number of skipped bins, each base bin is in
exactly one grouped bin, and each grouped bin has as many base bins as its size says.

Over all integers this is Euclidean division (`Binning.Grouping.exists_within_iff`). In the range
of the coordinates there is one reservation: the ends of a grouped bin are calculated, and on the
way a number may leave the range, although the base bin does not. So a grouped bin *holds* a base
bin (`Binning.Grouping.Holds`) if both of its ends are known and the base bin lies between them.
The only grouped bin that can hold a base bin does so if its ends are known, and they are if the
coordinates go on for a group on both sides, with and without the skipped bins
(`Binning.Grouping.Surrounds`).

The count of a grouping is the last grouped bin that ends within the axis
(`Binning.Grouping.CountsFitting`), also where this is none of the axis, because more bins are
skipped than there are. Groups of one bin are an exception if they skip bins, since the skipped
ones are counted but not mapped. `Binning.Node.groups_partition` has all of this.
-/

namespace Binning

open Outcome Coordinate

namespace Grouping

/-! ### Over all integers -/

/-- A grouped bin has as many base bins as its size says. -/
theorem lastBin_eq (g : Grouping) (b : Int) : g.lastBin b = g.firstBin b + g.size - 1 := by
  unfold firstBin lastBin
  split
  · next hone => omega
  · rw [Int.sub_mul]
    omega

/-- Every base bin is in a grouped bin. -/
theorem exists_within (g : Grouping) (x : Int) : ∃ b, g.firstBin b ≤ x ∧ x ≤ g.lastBin b := by
  by_cases hone : g.size = 1
  · exact ⟨x, by rw [firstBin, if_pos hone], by rw [lastBin, if_pos hone]⟩
  · -- The group after the last one that ends before `x`.
    obtain ⟨hle, hlt⟩ := lastBin_ediv_bounds hone (x - 1)
    refine ⟨(x - 1 - g.skip) / g.size + 1, ?_, ?_⟩
    · rw [firstBin_succ]
      omega
    · rw [lastBin_eq, firstBin_succ]
      omega

/-- A grouped bin that starts by a base bin is not beyond one that does not end before it. -/
theorem le_of_within {g : Grouping} {b b' x : Int} (h : g.firstBin b ≤ x) (h' : x ≤ g.lastBin b') :
    b ≤ b' := by
  by_contra hlt
  have hnext := g.firstBin_mono (Int.add_one_le_of_lt (not_le.mp hlt))
  rw [firstBin_succ] at hnext
  omega

/-- **Exactly one grouped bin** has a base bin. -/
theorem exists_within_iff (g : Grouping) (x : Int) :
    ∃ b, ∀ b', (g.firstBin b' ≤ x ∧ x ≤ g.lastBin b') ↔ b' = b := by
  obtain ⟨b, hfirst, hlast⟩ := g.exists_within x
  refine ⟨b, fun b' => ⟨fun h => ?_, ?_⟩⟩
  · exact Int.le_antisymm (le_of_within h.1 hlast) (le_of_within hfirst h.2)
  · rintro rfl
    exact ⟨hfirst, hlast⟩

/-! ### In the range of the coordinates -/

/-- **The ends of a grouped bin are known**: they are calculated without an overflow. -/
def EndsKnown (g : Grouping) (b : Int) : Prop :=
  (∃ first, g.firstBase b = .ok first) ∧ ∃ last, g.lastBase b = .ok last

/-- **A grouped bin holds a base bin**: its ends are known, and the base bin is between them. -/
def Holds (g : Grouping) (b x : Int) : Prop :=
  ∃ first last, g.firstBase b = .ok first ∧ g.lastBase b = .ok last ∧ first ≤ x ∧ x ≤ last

theorem holds_iff {g : Grouping} {b x : Int} :
    g.Holds b x ↔ (g.firstBin b ≤ x ∧ x ≤ g.lastBin b) ∧ g.EndsKnown b := by
  constructor
  · rintro ⟨first, last, hfirst, hlast, hle, hle'⟩
    obtain rfl := (g.firstBase_gives b).eq_of_ok hfirst
    obtain rfl := (g.lastBase_gives b).eq_of_ok hlast
    exact ⟨⟨hle, hle'⟩, ⟨_, hfirst⟩, _, hlast⟩
  · rintro ⟨⟨hle, hle'⟩, ⟨first, hfirst⟩, last, hlast⟩
    obtain rfl := (g.firstBase_gives b).eq_of_ok hfirst
    obtain rfl := (g.lastBase_gives b).eq_of_ok hlast
    exact ⟨_, _, hfirst, hlast, hle, hle'⟩

/-- **The coordinates surround a base bin** by a group on both sides, with and without the
skipped bins. -/
structure Surrounds (g : Grouping) (x : Int) : Prop where
  below : InRange (x - g.size)
  beyond : InRange (x + g.size)
  below_skip : InRange (x - g.size - g.skip)
  beyond_skip : InRange (x + g.size - g.skip)

/-- If the coordinates surround a base bin, the ends of its grouped bin are known. -/
theorem Surrounds.endsKnown {g : Grouping} {b x : Int} (hx : g.Surrounds x)
    (hfirst : g.firstBin b ≤ x) (hlast : x ≤ g.lastBin b) : g.EndsKnown b := by
  by_cases hone : g.size = 1
  · exact ⟨⟨b, by rw [firstBase, if_pos hone]⟩, b, by rw [lastBase, if_pos hone]⟩
  · obtain ⟨hbelow, hbeyond, hbelow', hbeyond'⟩ := hx
    unfold InRange at hbelow hbeyond hbelow' hbeyond'
    have hgroup := g.lastBin_eq b
    have hbefore := g.pred_mul_size b
    have hproduct := g.mul_size b
    rw [if_neg hone] at hbefore hproduct
    exact ⟨⟨_, firstBase_of_inRange ⟨by omega, by omega⟩ ⟨by omega, by omega⟩
      ⟨by omega, by omega⟩⟩, _, lastBase_of_inRange ⟨by omega, by omega⟩ ⟨by omega, by omega⟩⟩

/-- **At most one grouped bin holds a base bin**, and only an overflow keeps it from doing so. -/
theorem exists_holds_iff (g : Grouping) (x : Int) :
    ∃ b, (∀ b', (g.firstBin b' ≤ x ∧ x ≤ g.lastBin b') ↔ b' = b) ∧
      ∀ b', g.Holds b' x ↔ b' = b ∧ g.EndsKnown b := by
  obtain ⟨b, hb⟩ := g.exists_within_iff x
  refine ⟨b, hb, fun b' => ?_⟩
  rw [holds_iff, hb]
  constructor
  · rintro ⟨rfl, hknown⟩
    exact ⟨rfl, hknown⟩
  · rintro ⟨rfl, hknown⟩
    exact ⟨rfl, hknown⟩

/-- **Exactly one grouped bin holds a base bin** that the coordinates surround. -/
theorem existsUnique_holds {g : Grouping} {x : Int} (hx : g.Surrounds x) : ∃! b, g.Holds b x := by
  obtain ⟨b, hb, hholds⟩ := g.exists_holds_iff x
  obtain ⟨hfirst, hlast⟩ := (hb b).mpr rfl
  exact ⟨b, (hholds b).mpr ⟨rfl, hx.endsKnown hfirst hlast⟩, fun b' h => ((hholds b').mp h).1⟩

/-- A grouped bin of known ends holds as many base bins as the size of a group says. -/
theorem exists_card_holds {g : Grouping} {b : Int} (h : g.EndsKnown b) :
    ∃ bins : Finset Int, (∀ x, x ∈ bins ↔ g.Holds b x) ∧ (bins.card : Int) = g.size := by
  refine ⟨Finset.Icc (g.firstBin b) (g.lastBin b), fun x => ?_, ?_⟩
  · rw [holds_iff, Finset.mem_Icc, and_iff_left h]
  · have hpos := g.size_pos
    have hgroup := g.lastBin_eq b
    rw [Int.card_Icc]
    omega

/-! ### The last grouped bin that fits -/

/-- A grouped bin ends within a limit exactly if it is not beyond the last one that fits after the
skipped bins, unless the bins are grouped one by one and some are skipped nevertheless. -/
theorem lastBin_le_iff {g : Grouping} (h : 2 ≤ g.size ∨ g.skip = 0) {b limit : Int} :
    g.lastBin b ≤ limit ↔ b ≤ (limit - g.skip) / g.size := by
  have hpos := g.size_pos
  rw [Int.le_ediv_iff_mul_le (by omega)]
  unfold lastBin
  split
  · next hone =>
    rw [hone, Int.mul_one]
    omega
  · omega

/-- **The count is the last grouped bin that fits** an axis. A grouped bin whose end is known ends
within the axis exactly if it is not beyond the count. The count itself does so, unless its end is
not known; then the groups and what is skipped beyond the axis take up half of all coordinates. -/
structure CountsFitting (g : Grouping) (bins : Nat) : Prop where
  le_iff : ∀ b last, g.lastBase b = .ok last → (last ≤ bins ↔ b ≤ g.count)
  isGreatest : IsGreatest {b | ∃ last, g.lastBase b = .ok last ∧ last ≤ bins} g.count ∨
    g.lastBase g.count = .error .overflow ∧ 2 ^ 63 < g.size + max (g.skip - bins) 0

section Fitting

variable {g : Grouping} {bins : Nat} (hbins : bins < 2 ^ 63) (hrest : InRange (bins - g.skip))
  (hcount : g.count = (bins - g.skip) / g.size)

include hbins hrest hcount

/-- The end of the count is known, unless it is far below the first coordinate. -/
theorem lastBase_count (hnear : g.size + max (g.skip - bins) 0 ≤ 2 ^ 63) :
    g.lastBase g.count = .ok (g.lastBin g.count) := by
  by_cases hone : g.size = 1
  · rw [lastBase, lastBin, if_pos hone, if_pos hone]
  · obtain ⟨hle, hlt⟩ := lastBin_ediv_bounds hone bins
    rw [← hcount] at hle hlt
    have hproduct := g.mul_size g.count
    rw [if_neg hone] at hproduct
    unfold InRange at hrest
    exact lastBase_of_inRange ⟨by omega, by omega⟩ ⟨by omega, by omega⟩

/-- The count of a grouping is the last grouped bin that fits, if it is calculated from the bins
that the skipped ones leave. -/
theorem countsFitting (h : 2 ≤ g.size ∨ g.skip = 0) : g.CountsFitting bins := by
  have hle : ∀ b last, g.lastBase b = .ok last → (last ≤ bins ↔ b ≤ g.count) := by
    intro b last hlast
    obtain rfl := (g.lastBase_gives b).eq_of_ok hlast
    rw [hcount, lastBin_le_iff h]
  refine ⟨hle, ?_⟩
  rcases g.lastBase_gives g.count with hknown | hover
  · refine Or.inl ⟨⟨_, hknown, (hle _ _ hknown).mpr (Int.le_refl _)⟩, ?_⟩
    rintro b ⟨last, hlast, hwithin⟩
    exact (hle b last hlast).mp hwithin
  · refine Or.inr ⟨hover, not_le.mp fun hnear => ?_⟩
    rw [lastBase_count hbins hrest hcount hnear] at hover
    cases hover

end Fitting

/-- What fits is counted without an overflow if the bins that are left are a coordinate. -/
theorem fit_of_inRange {bins : Nat} {size skip : Int} (h : InRange (ofCount bins - skip)) :
    fit bins size skip = .ok ((ofCount bins - skip) / size) := by
  rw [fit, sub_of_inRange h]
  rfl

end Grouping

namespace Node

variable {β : Type} [BaseAxis β]

/-- A root is made if the bins that the skipped ones leave are a coordinate. -/
theorem make_of_inRange {base : β} {size skip : Int} (hsize : 1 ≤ size)
    (h : InRange (ofCount (BaseAxis.binCount base) - skip)) (low : Int) (high : Option Int) :
    make base size skip low high =
      .ok ⟨some base, Grouping.made (BaseAxis.binCount base) size skip low high hsize, []⟩ := by
  rw [make, dif_pos hsize, Grouping.make, Grouping.fit_of_inRange h]
  rfl

/-- A node is put over a base axis if the bins that the skipped ones leave are a coordinate. -/
theorem exists_withBase_of_inRange {base : β} {n : Node β}
    (h : InRange (ofCount (BaseAxis.binCount base) - n.grouping.skip)) :
    ∃ m, n.withBase base = .ok m ∧ m.grouping.size = n.grouping.size ∧
      m.grouping.skip = n.grouping.skip ∧
      m.grouping.count =
        (ofCount (BaseAxis.binCount base) - n.grouping.skip) / n.grouping.size := by
  rw [withBase, Grouping.fit_of_inRange h]
  exact ⟨_, rfl, rfl, rfl, rfl⟩

/-- **Grouped bins partition the base bins.** For every base bin there is exactly one grouped bin
that has it, and this is the only one that can hold it; it does hold it if its ends are known, and
they are if the coordinates surround the base bin. Each grouped bin of known ends holds as many
base bins as its group has. For groups of several bins, and for groups of one bin if none are
skipped, the count of a root, and of a node that is put over an axis, is the last grouped bin that
fits the axis, whether it is positive or not. -/
theorem groups_partition :
    (∀ (g : Grouping) (x : Int), ∃ b,
      (∀ b', (g.firstBin b' ≤ x ∧ x ≤ g.lastBin b') ↔ b' = b) ∧
      ∀ b', g.Holds b' x ↔ b' = b ∧ g.EndsKnown b) ∧
    (∀ (g : Grouping) (x : Int), g.Surrounds x → ∃! b, g.Holds b x) ∧
    (∀ (g : Grouping) (b : Int), g.EndsKnown b →
      ∃ bins : Finset Int, (∀ x, x ∈ bins ↔ g.Holds b x) ∧ (bins.card : Int) = g.size) ∧
    ∀ base : β, BaseAxis.binCount base < 2 ^ 63 →
      (∀ (size skip low : Int) (high : Option Int), 1 ≤ size → 2 ≤ size ∨ skip = 0 →
        InRange (BaseAxis.binCount base - skip) →
        ∃ n, make base size skip low high = .ok n ∧ n.grouping.size = size ∧
          n.grouping.skip = skip ∧ n.grouping.CountsFitting (BaseAxis.binCount base)) ∧
      ∀ m : Node β, 2 ≤ m.grouping.size ∨ m.grouping.skip = 0 →
        InRange (BaseAxis.binCount base - m.grouping.skip) →
        ∃ n, m.withBase base = .ok n ∧ n.grouping.size = m.grouping.size ∧
          n.grouping.skip = m.grouping.skip ∧
          n.grouping.CountsFitting (BaseAxis.binCount base) := by
  refine ⟨Grouping.exists_holds_iff, fun _ _ => Grouping.existsUnique_holds,
    fun _ _ => Grouping.exists_card_holds, fun base hbins => ⟨?_, ?_⟩⟩
  · intro size skip low high hsize hgroup hrest
    have hcount := ofCount_of_lt hbins
    refine ⟨_, make_of_inRange hsize (hcount ▸ hrest) low high, rfl, rfl,
      Grouping.countsFitting hbins hrest ?_ hgroup⟩
    rw [← hcount]
    rfl
  · intro m hgroup hrest
    have hcount := ofCount_of_lt hbins
    obtain ⟨n, hn, hsize, hskip, hfit⟩ := exists_withBase_of_inRange (hcount ▸ hrest)
    rw [hcount, ← hsize, ← hskip] at hfit
    rw [← hsize, ← hskip] at hgroup
    exact ⟨n, hn, hsize, hskip, Grouping.countsFitting hbins (hskip ▸ hrest) hfit hgroup⟩

/-- Groups of three after seven skipped bins, of which one has the base bins from `-7` to `-5`;
pairs after seven skipped bins of an axis of four, of which the last one that fits is `-2`; and
the single bins of this axis. -/
theorem groups_partition_skipped :
    (∃! b, (⟨3, 7, 1, 1, 1, by decide⟩ : Grouping).Holds b (-5)) ∧
    (∃ bins : Finset Int, (∀ x, x ∈ bins ↔ (⟨3, 7, 1, 1, 1, by decide⟩ : Grouping).Holds (-4) x) ∧
      (bins.card : Int) = 3) ∧
    (∃ n : Node UnitAxis, make ⟨4, Double.zero⟩ 2 7 1 none = .ok n ∧
      IsGreatest {b | ∃ last, n.grouping.lastBase b = .ok last ∧ last ≤ ((4 : Nat) : Int)} (-2)) ∧
    ∃ n : Node UnitAxis, blank.withBase ⟨4, Double.zero⟩ = .ok n ∧ n.grouping.count = 4 ∧
      n.grouping.CountsFitting 4 := by
  obtain ⟨-, hunique, hcard, hcount⟩ := @groups_partition UnitAxis _
  obtain ⟨hmake, hwith⟩ := hcount ⟨4, Double.zero⟩ (by decide)
  obtain ⟨n, hn, -, -, hfit⟩ := hmake 2 7 1 none (by decide) (Or.inl (by decide)) (by decide)
  obtain ⟨m, hm, -, -, hfit'⟩ := hwith blank (Or.inr rfl) (by decide)
  refine ⟨hunique _ _ ⟨by decide, by decide, by decide, by decide⟩,
    hcard _ _ ⟨⟨-7, by rfl⟩, -5, by rfl⟩, ⟨n, hn, ?_⟩, m, hm, ?_, hfit'⟩
  · obtain rfl := Except.ok.inj hn
    rcases hfit.isGreatest with h | ⟨-, hfar⟩
    · exact h
    · exact absurd hfar (by decide)
  · obtain rfl := Except.ok.inj hm
    rfl

end Node

end Binning
