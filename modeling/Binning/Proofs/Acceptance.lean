import Binning.Axis.Unit
import Binning.Proofs.Placement
import Binning.Proofs.Stretches

/-!
# Which stretches are accepted

Stretches are tried one after the other on a fresh root over an axis of `count` bins. One
would have them all accepted exactly if they have no more base bins together than the axis.
This is not quite so, and the first stretch decides what is true instead. It rebases the
root, and

* in single bins, it moves the end of the root to `count + 1`, so that one base bin too many
  is accepted (`Binning.Stretch.limit`);
* in groups, it leaves the end of the root where it is, but it begins in the underflow bin
  with a group of its own, so that the stretches reach further than they should
  (`Binning.Stretch.excess`).

All stretches are accepted exactly if the last one does not reach beyond the end of the root.
The invariant of the tree is `Binning.Node.Filled`: it knows how many base bins are covered
and where the root ends. An accepted stretch preserves it (`Binning.Node.Filled.addRange`), a
refused one reaches too far (`Binning.Node.Filled.limit_lt_reach`), and a stretch after a
refused one reaches no less far. The result is `Binning.Node.tryRanges_accepted_iff`.
-/

namespace Binning

open Outcome Coordinate

/-! ### How far stretches reach -/

/-- Single bins are whole groups of one, and none of any more. -/
theorem one_ediv_natCast {n : Nat} (h : 1 ≤ n) : (1 : Int) / n = if n = 1 then 1 else 0 := by
  split
  · next hone => simp [hone]
  · exact Int.ediv_eq_zero_of_lt (by omega) (by omega)

theorem one_emod_natCast {n : Nat} (h : 1 ≤ n) : (1 : Int) % n = if n = 1 then 0 else 1 := by
  split
  · next hone => simp [hone]
  · exact Int.emod_eq_of_lt (by omega) (by omega)

namespace Stretch

theorem one_le_size (s : Stretch) : (1 : Int) ≤ s.size := by exact_mod_cast s.size_pos

/-- How far stretches on a fresh root reach beyond the base bins that they have. Nothing is
added to a first stretch in single bins. Groups begin in the underflow bin: the first stretch
is shifted by one base bin, and the later ones come after a group more. -/
def excess (first : Stretch) (rest : List Stretch) : Nat :=
  if first.size = 1 then 0
  else match rest.getLast? with
    | none => 1
    | some last => first.size + if last.size = 1 then 0 else 1

/-- The base bin at which the last one of stretches on a fresh root ends. -/
def reach (first : Stretch) (rest : List Stretch) : Nat := total (first :: rest) + excess first rest

/-- The base bin at which the root over an axis of `count` bins ends after a first stretch. -/
def limit (count : Int) (first : Stretch) : Int := if first.size = 1 then count + 1 else count

theorem excess_concat (first : Stretch) (rest : List Stretch) (s : Stretch) :
    excess first (rest ++ [s]) =
      if first.size = 1 then 0 else first.size + if s.size = 1 then 0 else 1 := by
  simp [excess]

theorem reach_of_unit {first : Stretch} (h : first.size = 1) (rest : List Stretch) :
    reach first rest = total (first :: rest) := by
  simp [reach, excess, h]

/-- Stretches reach less than twice as far as they should. -/
theorem reach_le (first : Stretch) (rest : List Stretch) :
    reach first rest ≤ 2 * total (first :: rest) + 1 := by
  have hfirst : first.size ≤ first.size * first.bins := Nat.le_mul_of_pos_right _ first.bins_pos
  rw [reach, total_cons]
  unfold excess
  split
  · omega
  · split <;> (try split) <;> omega

/-- One more stretch reaches no less far. -/
theorem reach_le_concat (first : Stretch) (rest : List Stretch) (s : Stretch) :
    reach first rest ≤ reach first (rest ++ [s]) := by
  have hs := s.bins_le
  have hpos := s.bins_pos
  have hfirst := first.size_pos
  have htotal : total (first :: (rest ++ [s])) = total (first :: rest) + s.size * s.bins := by
    simp [Nat.add_assoc]
  rw [reach, reach, htotal, excess_concat]
  unfold excess
  split
  · omega
  · split <;> (try split) <;> omega

/-- More stretches reach no less far. -/
theorem reach_le_append (first : Stretch) (rest ss : List Stretch) :
    reach first rest ≤ reach first (rest ++ ss) := by
  induction ss generalizing rest with
  | nil => simp
  | cons s ss ih =>
    have hrest := ih (rest ++ [s])
    rw [List.append_assoc, List.singleton_append] at hrest
    exact (reach_le_concat first rest s).trans hrest

end Stretch

namespace Node

variable {β : Type} [BaseAxis β]

/-! ### The next stretch -/

/-- The grouping that a stretch would have as the next range of a node. -/
def upcoming (n : Node β) (base : β) (s : Stretch) : Grouping :=
  let p := n.placed base s.size (some s.bins)
  Grouping.made (BaseAxis.binCount base) s.size p.skip p.low (some p.high) s.one_le_size

/-- The grouping that a node would have after the next range. -/
def parentAfter (n : Node β) (base : β) (s : Stretch) : Grouping :=
  (n.placed base s.size (some s.bins)).parent

/-- **An accepted stretch** does not reach beyond its parent, and it is added. -/
theorem grown_of_addRange {n m : Node β} {base : β} {s : Stretch} (hbase : n.base = some base)
    (h : (n.addRange s.spec).outcome = .ok m) :
    (n.upcoming base s).stop = .ok (n.upcoming base s).upper ∧
      (n.upcoming base s).upper ≤ (n.parentAfter base s).upper ∧
      m = n.grown (n.parentAfter base s) (n.upcoming base s) := by
  obtain ⟨_, base', p, g, hbase', rfl, rfl, hstop, -, hle, rfl⟩ := exists_child_of_appendRange h
  obtain rfl : base = base' := Option.some.inj (hbase.symm.trans hbase')
  exact ⟨hstop, hle, rfl⟩

/-- A refused stretch would reach beyond its parent. -/
theorem lt_of_addRange_refused {n : Node β} {base : β} {s : Stretch} {cause : BinningError}
    (hbase : n.base = some base) (h : (n.addRange s.spec).outcome = .error (.refused cause)) :
    (n.parentAfter base s).upper < (n.upcoming base s).upper :=
  upper_lt_of_appendRange s.one_le_size hbase h

/-- A range that is not empty ends where it is placed. -/
theorem upcoming_high {n : Node β} {base : β} {s : Stretch}
    (h : (n.placed base s.size (some s.bins)).low ≤ (n.placed base s.size (some s.bins)).high) :
    (n.upcoming base s).high = (n.placed base s.size (some s.bins)).high :=
  if_pos h

/-! ### The first stretch -/

section First

variable (base : β) (s : Stretch)

/-- The local range of the first stretch. -/
theorem upcoming_root_range : (upcoming (root base) base s).low = (if s.size = 1 then 1 else 0) ∧
    (upcoming (root base) base s).high = s.bins := by
  have hpos := s.bins_pos
  have hlow : ((root base).placed base s.size (some s.bins)).low = if s.size = 1 then 1 else 0 :=
    one_ediv_natCast s.size_pos
  have hhigh : ((root base).placed base s.size (some s.bins)).high = s.bins := rfl
  refine ⟨hlow, (upcoming_high ?_).trans hhigh⟩
  rw [hlow, hhigh]
  split <;> omega

/-- The base bins of the first stretch. -/
theorem upcoming_root_bins : (upcoming (root base) base s).bins =
    s.size * s.bins + if s.size = 1 then 0 else (s.size : Int) := by
  obtain ⟨hlow, hhigh⟩ := upcoming_root_range base s
  have hsize : (upcoming (root base) base s).size = s.size := rfl
  rw [Grouping.bins, hlow, hhigh, hsize]
  split
  · next hone =>
    rw [hone]
    ring
  · ring

/-- Where the first stretch ends. -/
theorem upcoming_root_upper : (upcoming (root base) base s).upper = Stretch.reach s [] := by
  have hplaced : IsPlaced 1 [] (⟨some base, upcoming (root base) base s, []⟩ : Node β) :=
    (ranged_of_leaf (n := root base) rfl).isPlaced base s.one_le_size _
  have hupper := hplaced.upper_first
  have hsize : (upcoming (root base) base s).size = s.size := rfl
  rw [covered_cons, covered_nil, upcoming_root_bins, hsize] at hupper
  have htotal : Stretch.total [s] = s.size * s.bins := by simp
  rw [hupper, Stretch.reach, Stretch.excess, htotal]
  split
  · next hone =>
    rw [hone]
    push_cast
    ring
  · rw [List.getLast?_nil]
    push_cast
    ring

/-- The root after the first stretch. -/
theorem parentAfter_root :
    parentAfter (root base) base s = (root base).grouping.rebased s.size := rfl

/-- Where the root ends after the first stretch. -/
theorem rebased_root_high : ((root base).grouping.rebased s.size).high =
    Stretch.limit (ofCount (BaseAxis.binCount base)) s := by
  unfold Grouping.rebased root
  dsimp only
  rw [one_emod_natCast s.size_pos, Stretch.limit]
  split <;> omega

theorem parentAfter_root_upper : (parentAfter (root base) base s).upper =
    Stretch.limit (ofCount (BaseAxis.binCount base)) s := by
  have hsize : ((root base).grouping.rebased s.size).size = 1 := rfl
  rw [parentAfter_root, Grouping.upper, Grouping.lastBin, if_pos hsize, rebased_root_high]

end First

/-! ### The later stretches -/

/-- **The invariant of a root with stretches**, of which `first` is the first one. Their base
bins are covered, and one group more if they are groups; the root ends at the limit. -/
structure Filled (base : β) (first : Stretch) (rest : List Stretch) (m : Node β) : Prop where
  base_eq : m.base = some base
  ranged : Ranged 1 m
  sizes_eq : m.sizes = (first :: rest).map fun s => (s.size : Int)
  covered_eq : covered m.children =
    Stretch.total (first :: rest) + if first.size = 1 then 0 else (first.size : Int)
  size_eq : m.grouping.size = 1
  high_eq : m.grouping.high = Stretch.limit (ofCount (BaseAxis.binCount base)) first
  spread : ∀ c ∈ m.children, 0 ≤ c.grouping.low ∧ c.grouping.low ≤ c.grouping.high

/-- **The first stretch fills the root.** -/
theorem filled_root {base : β} {s : Stretch} {m : Node β}
    (h : ((root base).addRange s.spec).outcome = .ok m) : Filled base s [] m := by
  obtain ⟨hranged, hsizes⟩ := (ranged_of_leaf (n := root base) rfl).addRange h
  obtain ⟨-, -, hm⟩ := grown_of_addRange rfl h
  have hchildren : m.children = [⟨some base, upcoming (root base) base s, []⟩] := by
    rw [hm]
    rfl
  have hgroup : m.grouping = (root base).grouping.rebased s.size := by
    rw [hm]
    rfl
  exact {
    base_eq := by
      rw [hm]
      rfl
    ranged := hranged
    sizes_eq := hsizes
    covered_eq := by
      rw [hchildren, covered_cons, covered_nil, upcoming_root_bins]
      simp
    size_eq := by
      rw [hgroup]
      rfl
    high_eq := by rw [hgroup, rebased_root_high]
    spread := by
      obtain ⟨hlow, hhigh⟩ := upcoming_root_range base s
      have hpos := s.bins_pos
      intro c hc
      rw [hchildren] at hc
      obtain rfl := List.mem_singleton.mp hc
      dsimp only
      rw [hlow, hhigh]
      split <;> omega }

section Later

variable {base : β} {first : Stretch} {rest : List Stretch} {m : Node β}
  (hm : Filled base first rest m)

include hm

/-- The first child has groups of the first size. -/
theorem Filled.exists_first : ∃ c cs, m.children = c :: cs ∧ c.grouping.size = first.size := by
  obtain ⟨c, cs, hc, hsize, -⟩ := List.map_eq_cons_iff.mp hm.sizes_eq
  exact ⟨c, cs, hc, hsize⟩

/-- Where the root ends. -/
theorem Filled.upper_eq :
    m.grouping.upper = Stretch.limit (ofCount (BaseAxis.binCount base)) first := by
  rw [Grouping.upper, Grouping.lastBin, if_pos hm.size_eq, hm.high_eq]

/-- The later stretches do not change the root. -/
theorem Filled.parentAfter_eq (s : Stretch) : m.parentAfter base s = m.grouping := by
  obtain ⟨c, cs, hc, -⟩ := hm.exists_first
  simp [parentAfter, placed, isLeaf, hc]

/-- The local range of a later stretch. -/
theorem Filled.upcoming_range (s : Stretch) :
    (m.upcoming base s).low = covered m.children / s.size + 1 ∧
      (m.upcoming base s).high = covered m.children / s.size + s.bins := by
  obtain ⟨c, cs, hc, -⟩ := hm.exists_first
  have hlow : (m.placed base s.size (some s.bins)).low = covered m.children / s.size + 1 := by
    simp [placed, isLeaf, hc]
  have hhigh : (m.placed base s.size (some s.bins)).high =
      covered m.children / s.size + s.bins := by
    simp only [placed, isLeaf, hc, List.isEmpty_cons, Bool.false_eq_true, ↓reduceIte]
    omega
  have hpos := s.bins_pos
  refine ⟨hlow, (upcoming_high ?_).trans hhigh⟩
  rw [hlow, hhigh]
  omega

/-- The base bins of a later stretch. -/
theorem Filled.upcoming_bins (s : Stretch) : (m.upcoming base s).bins = s.size * s.bins := by
  obtain ⟨hlow, hhigh⟩ := hm.upcoming_range s
  have hsize : (m.upcoming base s).size = s.size := rfl
  rw [Grouping.bins, hlow, hhigh, hsize]
  ring

/-- Where a later stretch ends. -/
theorem Filled.upcoming_upper (s : Stretch) :
    (m.upcoming base s).upper = Stretch.reach first (rest ++ [s]) := by
  obtain ⟨c, cs, hc, hfirst⟩ := hm.exists_first
  have hplaced : IsPlaced 1 (c :: cs) (⟨m.base, m.upcoming base s, []⟩ : Node β) :=
    hc ▸ hm.ranged.isPlaced base s.one_le_size _
  have hupper := hplaced.upper_later
  have hsize : (m.upcoming base s).size = s.size := rfl
  have htotal : Stretch.total (first :: (rest ++ [s])) =
      Stretch.total (first :: rest) + s.size * s.bins := by
    simp [Nat.add_assoc]
  have hshift : shift 1 c (⟨m.base, m.upcoming base s, []⟩ : Node β) =
      if first.size = 1 then 0 else if s.size = 1 then 0 else 1 := by
    rw [shift, hsize, hfirst, one_emod_natCast first.size_pos]
    split <;> split <;> simp_all
  rw [← hc, covered_append, covered_cons, covered_nil, hm.covered_eq, hm.upcoming_bins, hshift]
    at hupper
  rw [hupper, Stretch.reach, Stretch.excess_concat, htotal]
  split
  · push_cast
    ring
  · split
    · push_cast
      ring
    · push_cast
      ring

/-- **An accepted stretch fills the root further.** -/
theorem Filled.addRange {s : Stretch} {m' : Node β} (h : (m.addRange s.spec).outcome = .ok m') :
    Filled base first (rest ++ [s]) m' := by
  obtain ⟨hranged, hsizes⟩ := hm.ranged.addRange h
  obtain ⟨-, -, hm'⟩ := grown_of_addRange hm.base_eq h
  rw [hm.parentAfter_eq s] at hm'
  have hchildren : m'.children = m.children ++ [⟨m.base, m.upcoming base s, []⟩] := by
    rw [hm']
    rfl
  have hgroup : m'.grouping = m.grouping := by
    rw [hm']
    rfl
  exact {
    base_eq := by
      rw [hm']
      exact hm.base_eq
    ranged := hranged
    sizes_eq := by
      rw [hsizes, hm.sizes_eq, ← List.cons_append, List.map_append]
      rfl
    covered_eq := by
      rw [hchildren, covered_append, covered_cons, covered_nil, hm.covered_eq, hm.upcoming_bins,
        ← List.cons_append, Stretch.total_append]
      simp
      ring
    size_eq := by rw [hgroup, hm.size_eq]
    high_eq := by rw [hgroup, hm.high_eq]
    spread := by
      have hcovered : 0 ≤ covered m.children := by
        rw [hm.covered_eq]
        split <;> omega
      obtain ⟨hlow, hhigh⟩ := hm.upcoming_range s
      have hdiv : 0 ≤ covered m.children / s.size := Int.ediv_nonneg hcovered (by omega)
      have hpos := s.bins_pos
      intro c hc
      rw [hchildren] at hc
      rcases List.mem_append.mp hc with hc | hc
      · exact hm.spread c hc
      · obtain rfl := List.mem_singleton.mp hc
        dsimp only
        rw [hlow, hhigh]
        omega }

end Later

/-! ### Without an overflow -/

section Known

variable {base : β} {s : Stretch}

/-- **A stretch that has its place is accepted or refused** if it is counted forwards and its
end is in range. -/
theorem addRange_of_place {n : Node β} (hbase : n.base = some base)
    (hcount : BaseAxis.binCount base < 2 ^ 63)
    (hplace : n.place base s.size (some s.bins) = .ok (n.placed base s.size (some s.bins)))
    (hparent : (n.parentAfter base s).size = 1)
    (hskip : 0 ≤ (n.upcoming base s).skip ∧ (n.upcoming base s).skip < 2 ^ 63)
    (hhigh : 1 ≤ (n.upcoming base s).high) (hupper : (n.upcoming base s).upper < 2 ^ 63) :
    (∃ m, (n.addRange s.spec).outcome = .ok m) ∨
      ∃ cause, (n.addRange s.spec).outcome = .error (.refused cause) := by
  have hmake : Grouping.make (BaseAxis.binCount base) s.size
      (n.placed base s.size (some s.bins)).skip (n.placed base s.size (some s.bins)).low
      (some (n.placed base s.size (some s.bins)).high) s.one_le_size =
        .ok (n.upcoming base s) := by
    have hskip : 0 ≤ (n.placed base s.size (some s.bins)).skip ∧
      (n.placed base s.size (some s.bins)).skip < 2 ^ 63 := hskip
    rw [Grouping.make, Grouping.fit, ofCount_of_lt hcount, sub_of_inRange ⟨by omega, by omega⟩,
      ok_bind, upcoming, Grouping.made, ofCount_of_lt hcount]
    rfl
  have hlimit : (n.parentAfter base s).stop = .ok (n.parentAfter base s).high := by
    rw [Grouping.stop, Grouping.lastBase, if_pos hparent]
  exact appendRange_of_known s.one_le_size hbase hplace hmake
    (Grouping.lastBase_eq_ok hskip.1 hhigh hupper) hlimit

/-- The first stretch is accepted or refused if it is not too long. -/
theorem addRange_root (hcount : BaseAxis.binCount base < 2 ^ 63 - 1)
    (hfits : 2 * (s.size * s.bins) < 2 ^ 63 - 1) :
    (∃ m, ((root base).addRange s.spec).outcome = .ok m) ∨
      ∃ cause, ((root base).addRange s.spec).outcome = .error (.refused cause) := by
  have hsize : s.size ≤ s.size * s.bins := Nat.le_mul_of_pos_right _ s.bins_pos
  have hmod := one_emod_natCast s.size_pos
  have hplace : (root base).place base s.size (some s.bins) =
      .ok ((root base).placed base s.size (some s.bins)) := by
    have hrebase : (root base).grouping.rebase s.size =
        .ok ((root base).grouping.rebased s.size) := by
      have hone : 0 ≤ (1 : Int) % s.size ∧ (1 : Int) % s.size ≤ 1 := by
        rw [hmod]
        split <;> omega
      unfold Grouping.rebase Grouping.rebased root
      rw [ofCount_of_lt (by omega)]
      dsimp only
      rw [sub_of_inRange ⟨by omega, by omega⟩, ok_bind, sub_of_inRange ⟨by omega, by omega⟩,
        ok_bind]
      rfl
    have hleaf : (root base).isLeaf = true := rfl
    rw [place, placed]
    simp only [hleaf, ↓reduceIte, hrebase, ok_bind]
    rfl
  have hskip : (upcoming (root base) base s).skip = 1 % (s.size : Int) := rfl
  refine addRange_of_place rfl (by omega) hplace rfl ?_ ?_ ?_
  · rw [hskip, hmod]
    split <;> omega
  · rw [(upcoming_root_range base s).2]
    have := s.bins_pos
    omega
  · have hreach := Stretch.reach_le s []
    rw [Stretch.total_cons, Stretch.total_nil] at hreach
    rw [upcoming_root_upper]
    omega

/-- A later stretch is accepted or refused if the stretches are not too long together. -/
theorem Filled.addRange_known {first : Stretch} {rest : List Stretch} {m : Node β}
    (hm : Filled base first rest m) (hcount : BaseAxis.binCount base < 2 ^ 63 - 1)
    (hfits : 2 * (Stretch.total (first :: rest) + s.size * s.bins) < 2 ^ 63 - 1) :
    (∃ m', (m.addRange s.spec).outcome = .ok m') ∨
      ∃ cause, (m.addRange s.spec).outcome = .error (.refused cause) := by
  obtain ⟨c, cs, hc, hfirst⟩ := hm.exists_first
  have hsize : first.size ≤ Stretch.total (first :: rest) := by
    rw [Stretch.total_cons]
    have := Nat.le_mul_of_pos_right first.size first.bins_pos
    omega
  have hbins := s.bins_le
  have hpos := s.bins_pos
  have hcovered : 0 ≤ covered m.children ∧
      covered m.children ≤ 2 * Stretch.total (first :: rest) := by
    rw [hm.covered_eq]
    split <;> omega
  have hwidth : totalWidth 0 m.children = .ok (covered m.children) := by
    have := totalWidth_eq_ok (fun c hc => (hm.spread c hc).2) (Int.le_refl 0) (by omega)
    rwa [Int.zero_add] at this
  have hmskip : 0 ≤ m.grouping.skip ∧ m.grouping.skip ≤ 1 := by
    rw [(hm.ranged.rebased c cs hc).1, hfirst, one_emod_natCast first.size_pos]
    split <;> omega
  have hdiv : 0 ≤ covered m.children / s.size ∧
      covered m.children / s.size ≤ covered m.children :=
    ⟨Int.ediv_nonneg hcovered.1 (by omega), Int.ediv_le_self _ hcovered.1⟩
  have hmod : 0 ≤ covered m.children % s.size ∧ covered m.children % s.size ≤ covered m.children :=
    ⟨Int.emod_nonneg _ (by have := s.one_le_size; omega), by
      have := Int.ediv_mul_add_emod (covered m.children) s.size
      have := Int.mul_nonneg hdiv.1 (Int.natCast_nonneg s.size)
      omega⟩
  have hleaf : m.isLeaf = false := by simp [isLeaf, hc]
  have hskip : (m.upcoming base s).skip = covered m.children % s.size + m.grouping.skip := by
    change (m.placed base s.size (some s.bins)).skip = _
    simp [placed, hleaf]
  have hplace : m.place base s.size (some s.bins) =
      .ok (m.placed base s.size (some s.bins)) := by
    rw [place, placed]
    simp only [hleaf, Bool.false_eq_true, ↓reduceIte, hwidth, ok_bind]
    rw [add_of_inRange ⟨by omega, by omega⟩, ok_bind]
    -- A skip offset of zero is not added, which makes no difference.
    by_cases hzero : m.grouping.skip = 0
    · simp only [hzero, ↓reduceIte, Int.add_zero]
      rw [add_of_inRange ⟨by omega, by omega⟩, ok_bind, sub_of_inRange ⟨by omega, by omega⟩,
        ok_bind]
      rfl
    · simp only [hzero, ↓reduceIte]
      rw [add_of_inRange ⟨by omega, by omega⟩, ok_bind, add_of_inRange ⟨by omega, by omega⟩,
        ok_bind, sub_of_inRange ⟨by omega, by omega⟩, ok_bind]
      rfl
  refine addRange_of_place hm.base_eq (by omega) hplace ?_ ?_ ?_ ?_
  · rw [hm.parentAfter_eq, hm.size_eq]
  · rw [hskip]
    omega
  · rw [(hm.upcoming_range s).2]
    omega
  · have hreach := Stretch.reach_le first (rest ++ [s])
    rw [← List.cons_append, Stretch.total_append, Stretch.total_cons s, Stretch.total_nil] at hreach
    rw [hm.upcoming_upper]
    omega

/-- Stretches tried on a fresh root come to an end if they are not too long together. -/
theorem exists_tryRanges (hcount : BaseAxis.binCount base < 2 ^ 63 - 1) {ss : List Stretch}
    (hfits : 2 * Stretch.total ss < 2 ^ 63 - 1) :
    ∃ accepted m, (root base).tryRanges (ss.map Stretch.spec) = .ok (accepted, m) := by
  refine Run.exists_attempts (I := fun calls m => ∃ ss, calls = ss.map Stretch.spec ∧
    ((m = root base ∧ 2 * Stretch.total ss < 2 ^ 63 - 1) ∨ ∃ first rest, Filled base first rest m ∧
      2 * (Stretch.total (first :: rest) + Stretch.total ss) < 2 ^ 63 - 1)) ?_
    ⟨ss, rfl, Or.inl ⟨rfl, hfits⟩⟩
  rintro call calls m ⟨ss, hcalls, hm⟩
  obtain ⟨s, ss, rfl, rfl, rfl⟩ := List.map_eq_cons_iff.mp hcalls.symm
  rcases hm with ⟨rfl, hfits⟩ | ⟨first, rest, hm, hfits⟩
  · rw [Stretch.total_cons] at hfits
    rcases addRange_root hcount (s := s) (by omega) with ⟨m', h⟩ | ⟨cause, h⟩
    · refine Or.inl ⟨m', h, ss, rfl, Or.inr ⟨s, [], filled_root h, ?_⟩⟩
      rwa [Stretch.total_cons, Stretch.total_nil]
    · exact Or.inr ⟨cause, h, ss, rfl, Or.inl ⟨rfl, by omega⟩⟩
  · rw [Stretch.total_cons s] at hfits
    rcases hm.addRange_known hcount (s := s) (by omega) with ⟨m', h⟩ | ⟨cause, h⟩
    · refine Or.inl ⟨m', h, ss, rfl, Or.inr ⟨first, rest ++ [s], hm.addRange h, ?_⟩⟩
      rw [← List.cons_append, Stretch.total_append, Stretch.total_cons s, Stretch.total_nil]
      omega
    · exact Or.inr ⟨cause, h, ss, rfl, Or.inr ⟨first, rest, hm, by omega⟩⟩

end Known

/-! ### All stretches -/

/-- A refused stretch reaches beyond the end of the root. -/
theorem Filled.limit_lt_reach {base : β} {first : Stretch} {rest : List Stretch} {m : Node β}
    (hm : Filled base first rest m) {s : Stretch} {cause : BinningError}
    (h : (m.addRange s.spec).outcome = .error (.refused cause)) :
    Stretch.limit (ofCount (BaseAxis.binCount base)) first <
      (Stretch.reach first (rest ++ [s]) : Int) := by
  have hlt := lt_of_addRange_refused hm.base_eq h
  rwa [hm.parentAfter_eq, hm.upper_eq, hm.upcoming_upper] at hlt

/-- **Later stretches are all accepted** exactly if the last one does not reach beyond the
end of the root. The induction is on the stretches still to come, after those in `rest`. -/
theorem Filled.accepted_iff {base : β} {first : Stretch} {rest ss : List Stretch} {m last : Node β}
    (hm : Filled base first rest m)
    (hreach : (Stretch.reach first rest : Int) ≤
      Stretch.limit (ofCount (BaseAxis.binCount base)) first) {accepted : List RangeSpec}
    (h : m.tryRanges (ss.map Stretch.spec) = .ok (accepted, last)) :
    accepted = ss.map Stretch.spec ↔
      (Stretch.reach first (rest ++ ss) : Int) ≤
        Stretch.limit (ofCount (BaseAxis.binCount base)) first := by
  induction ss generalizing rest m accepted with
  | nil =>
    obtain ⟨rfl, -⟩ := Prod.mk.inj (Except.ok.inj h)
    simpa using hreach
  | cons s ss ih =>
    have hsplit : rest ++ s :: ss = rest ++ [s] ++ ss := by simp
    rw [hsplit, List.map_cons]
    rcases Run.attempts_cons_eq_ok.mp h with ⟨m', others, hcall, hrest, rfl⟩ | ⟨_, hcall, hrest⟩
    · obtain ⟨-, hle, -⟩ := grown_of_addRange hm.base_eq hcall
      rw [hm.parentAfter_eq, hm.upper_eq, hm.upcoming_upper] at hle
      rw [List.cons.injEq, and_iff_right rfl]
      exact ih (hm.addRange hcall) hle hrest
    · -- One stretch is missing, and the others reach no less far than it would have done.
      have hlt := hm.limit_lt_reach hcall
      have hmore := Stretch.reach_le_append first (rest ++ [s]) ss
      exact iff_of_false (Run.ne_cons_of_attempts hrest s.spec) (by omega)

/-- Stretches on a fresh root are all accepted exactly if the last one does not reach beyond
the end that the first one gives to the root. -/
theorem accepted_iff_reach_le {base : β} {first : Stretch} {rest : List Stretch} {m : Node β}
    {accepted : List RangeSpec}
    (h : (root base).tryRanges ((first :: rest).map Stretch.spec) = .ok (accepted, m)) :
    accepted = (first :: rest).map Stretch.spec ↔
      (Stretch.reach first rest : Int) ≤
        Stretch.limit (ofCount (BaseAxis.binCount base)) first := by
  have hend := parentAfter_root_upper base first
  rcases Run.attempts_cons_eq_ok.mp h with ⟨m', others, hcall, hrest, rfl⟩ | ⟨_, hcall, hrest⟩
  · obtain ⟨-, hle, -⟩ := grown_of_addRange rfl hcall
    rw [hend, upcoming_root_upper] at hle
    rw [List.map_cons, List.cons.injEq, and_iff_right rfl]
    exact (filled_root hcall).accepted_iff hle hrest
  · have hlt := lt_of_addRange_refused rfl hcall
    rw [hend, upcoming_root_upper] at hlt
    have hmore := Stretch.reach_le_append first [] rest
    rw [List.nil_append] at hmore
    exact iff_of_false (Run.ne_cons_of_attempts hrest first.spec) (by omega)

/-- **Which stretches are accepted**, tried one after the other on the root over any axis.
The attempts come to an end if nothing is too long for a coordinate. Whenever they do, all
stretches are accepted exactly if the last one does not reach beyond the end of the root.
This is the same as having no more base bins than the axis, but with two exceptions: a first
stretch in single bins, and one base bin too many; or a first stretch in groups, and a total
that fits although the last stretch reaches too far. -/
theorem tryRanges_accepted_iff {base : β} {n : Node β} (hroot : ofBase base = .ok n)
    (first : Stretch) (rest : List Stretch) :
    (BaseAxis.binCount base < 2 ^ 63 - 1 → 2 * Stretch.total (first :: rest) < 2 ^ 63 - 1 →
      ∃ accepted m, n.tryRanges ((first :: rest).map Stretch.spec) = .ok (accepted, m)) ∧
    ∀ accepted m, n.tryRanges ((first :: rest).map Stretch.spec) = .ok (accepted, m) →
      (accepted = (first :: rest).map Stretch.spec ↔
        (Stretch.reach first rest : Int) ≤
          Stretch.limit (ofCount (BaseAxis.binCount base)) first) ∧
      (BaseAxis.binCount base < 2 ^ 63 →
        ((accepted = (first :: rest).map Stretch.spec ↔
            Stretch.total (first :: rest) ≤ BaseAxis.binCount base) ↔
          if first.size = 1 then Stretch.total (first :: rest) ≠ BaseAxis.binCount base + 1
          else Stretch.total (first :: rest) ≤ BaseAxis.binCount base →
            Stretch.reach first rest ≤ BaseAxis.binCount base)) := by
  rw [ofBase_eq] at hroot
  obtain rfl : root base = n := Except.ok.inj hroot
  refine ⟨fun hcount hfits => exists_tryRanges hcount hfits, fun accepted m h => ?_⟩
  refine ⟨accepted_iff_reach_le h, fun hcount => ?_⟩
  rw [accepted_iff_reach_le h, ofCount_of_lt hcount, Stretch.limit]
  split
  · next hone =>
    rw [Stretch.reach_of_unit hone]
    omega
  · have hle : Stretch.total (first :: rest) ≤ Stretch.reach first rest := Nat.le_add_right _ _
    omega

/-- Four single bins and three groups of two fit ten bins exactly, and are accepted. -/
theorem tryRanges_accepted_ten : ∃ m : Node UnitAxis,
    ofBase (⟨10, Double.zero⟩ : UnitAxis) = .ok (root ⟨10, Double.zero⟩) ∧
    (root ⟨10, Double.zero⟩).tryRanges
        ([⟨1, 4, by decide, by decide⟩, ⟨2, 3, by decide, by decide⟩].map Stretch.spec) =
      .ok ([⟨1, some 4⟩, ⟨2, some 3⟩], m) := by
  obtain ⟨hends, hall⟩ := tryRanges_accepted_iff (ofBase_eq (⟨10, Double.zero⟩ : UnitAxis))
    ⟨1, 4, by decide, by decide⟩ [⟨2, 3, by decide, by decide⟩]
  obtain ⟨accepted, m, hrun⟩ := hends (by decide) (by decide)
  obtain rfl := (hall accepted m hrun).1.mpr (by decide)
  exact ⟨m, ofBase_eq _, hrun⟩

/-- **Too much accepted, and an exact fit refused.** On an axis of two bins three single bins
are accepted, and a group of two is not. -/
theorem tryRanges_accepted_two : ∃ m m' : Node UnitAxis,
    ofBase (⟨2, Double.zero⟩ : UnitAxis) = .ok (root ⟨2, Double.zero⟩) ∧
    (root ⟨2, Double.zero⟩).tryRanges ([⟨1, 3, by decide, by decide⟩].map Stretch.spec) =
      .ok ([⟨1, some 3⟩], m) ∧
    Stretch.total [⟨1, 3, by decide, by decide⟩] = 3 ∧
    (root ⟨2, Double.zero⟩).tryRanges ([⟨2, 1, by decide, by decide⟩].map Stretch.spec) =
      .ok ([], m') ∧
    Stretch.total [⟨2, 1, by decide, by decide⟩] = 2 :=
  ⟨_, _, ofBase_eq _, by rfl, by rfl, by rfl, by rfl⟩

end Node

end Binning
