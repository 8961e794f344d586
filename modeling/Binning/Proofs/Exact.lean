import Binning.Node.Append
import Binning.Proofs.Outcome
import Mathlib.Tactic.Ring

/-!
# Groupings and ranges over all integers

Coordinates have a range, and each operation on them checks it. Where nothing
overflows, what the library calculates is plain integer arithmetic. This file says
which: beside every calculation it puts an integer, a grouping or a place, and
shows that the calculation gives it, in the sense of `Binning.Outcome.Gives`.

| calculation | over all integers | theorem |
|---|---|---|
| `Binning.Grouping.firstBase` | `Binning.Grouping.firstBin` | `Binning.Grouping.firstBase_gives` |
| `Binning.Grouping.lastBase` | `Binning.Grouping.lastBin` | `Binning.Grouping.lastBase_gives` |
| `Binning.Grouping.start`, `stop` | `Binning.Grouping.lower`, `upper` | `Binning.Grouping.start_gives`, `stop_gives` |
| `Binning.Grouping.width` | `Binning.Grouping.bins` | `Binning.Grouping.width_gives` |
| `Binning.totalWidth` | `Binning.Node.covered` | `Binning.Node.totalWidth_gives` |
| `Binning.Grouping.make` | `Binning.Grouping.made` | `Binning.Grouping.make_gives` |
| `Binning.Node.place` | `Binning.Node.placed` | `Binning.Node.place_gives` |

With it the addition of a range can be read in one piece: a range is accepted
exactly under the conditions of `Binning.Node.appendRange_eq_ok`, and what it adds
is described by `Binning.Node.exists_child_of_appendRange`.
-/

namespace Binning

open Outcome

/-! ### Coordinates -/

namespace Coordinate

theorem checked_of_inRange {x : Int} (h : InRange x) : checked x = .ok x := if_pos h

theorem gives_checked (x : Int) : Gives (checked x) x := by
  rw [checked]
  split
  · exact .inl rfl
  · exact .inr rfl

theorem gives_add (x y : Int) : Gives (add x y) (x + y) := gives_checked _

theorem gives_sub (x y : Int) : Gives (sub x y) (x - y) := gives_checked _

theorem gives_mul (x y : Int) : Gives (mul x y) (x * y) := gives_checked _

/-- A bin count that is not too large is itself as a coordinate. -/
theorem ofCount_of_lt {n : Nat} (h : n < 2 ^ 63) : ofCount n = n := by
  unfold ofCount
  rw [Int.bmod_def]
  split <;> omega

/-- Whatever the bin count, it is a coordinate. -/
theorem inRange_ofCount (n : Nat) : InRange (ofCount n) := by
  have hlow := Int.le_bmod (x := n) (m := 0x10000000000000000) (by decide)
  have hhigh := Int.bmod_lt (x := n) (m := 0x10000000000000000) (by decide)
  unfold InRange ofCount
  omega

end Coordinate

open Coordinate

/-! ### Groupings -/

namespace Grouping

/-- Single bins are groups. -/
theorem one_le_one : (1 : Int) ≤ 1 := Int.le_refl 1

theorem one_le_two : (1 : Int) ≤ 2 := Int.le_of_lt (by decide)

/-- The first base bin of a grouped bin. -/
def firstBin (g : Grouping) (b : Int) : Int :=
  if g.size = 1 then b else (b - 1) * g.size + 1 + g.skip

/-- The last base bin of a grouped bin. -/
def lastBin (g : Grouping) (b : Int) : Int := if g.size = 1 then b else b * g.size + g.skip

/-- The first base bin of the local range. -/
def lower (g : Grouping) : Int := g.firstBin g.low

/-- The last base bin of the local range. -/
def upper (g : Grouping) : Int := g.lastBin g.high

/-- The number of base bins in the local range, negative for a range that ends more
than one bin before it starts. -/
def bins (g : Grouping) : Int := g.size * (g.high - g.low + 1)

/-- The grouping after the first range, in groups of `size` bins. -/
def rebased (g : Grouping) (size : Int) : Grouping :=
  { g with skip := g.low % size, low := g.low / size, high := g.high - (g.low % size - 1) }

/-- The last group of `size` bins after `skip` bins within a parent and an axis. -/
def lastGroup (parent : Grouping) (bins : Nat) (size skip : Int) : Int :=
  (min parent.upper (ofCount bins) - skip) / size

/-- The grouping of an axis of `bins` bins. -/
def made (bins : Nat) (size skip low : Int) (high : Option Int) (size_pos : 1 ≤ size) : Grouping :=
  let count := (ofCount bins - skip) / size
  ⟨size, skip, low,
    match high with
    | some h => if low ≤ h then h else count
    | none => count,
    count, size_pos⟩

theorem firstBase_gives (g : Grouping) (b : Int) : Gives (g.firstBase b) (g.firstBin b) := by
  unfold firstBase firstBin
  split
  · exact gives_ok b
  · exact (gives_sub _ _).bind ((gives_mul _ _).bind ((gives_add _ _).bind (gives_add _ _)))

theorem lastBase_gives (g : Grouping) (b : Int) : Gives (g.lastBase b) (g.lastBin b) := by
  unfold lastBase lastBin
  split
  · exact gives_ok b
  · exact (gives_mul _ _).bind (gives_add _ _)

theorem start_gives (g : Grouping) : Gives g.start g.lower := g.firstBase_gives g.low

theorem stop_gives (g : Grouping) : Gives g.stop g.upper := g.lastBase_gives g.high

theorem width_gives (g : Grouping) : Gives g.width g.bins :=
  (gives_sub _ _).bind ((gives_add _ _).bind (gives_mul _ _))

theorem rebase_gives (g : Grouping) (size : Int) : Gives (g.rebase size) (g.rebased size) :=
  (gives_sub _ _).bind ((gives_sub _ _).bind (gives_pure _))

theorem lastWithin_gives (parent : Grouping) (bins : Nat) (size skip : Int) :
    Gives (parent.lastWithin bins size skip) (parent.lastGroup bins size skip) :=
  parent.stop_gives.bind ((gives_sub _ _).bind (gives_pure _))

theorem make_gives (bins : Nat) (size skip low : Int) (high : Option Int) (size_pos : 1 ≤ size) :
    Gives (make bins size skip low high size_pos) (made bins size skip low high size_pos) := by
  have hfit : Gives (fit bins size skip) ((ofCount bins - skip) / size) :=
    (gives_sub _ _).bind (gives_pure _)
  exact hfit.bind (gives_pure _)

/-! ### The bins of a local range -/

/-- A local range of groups ends where its bins end. -/
theorem upper_eq (g : Grouping) : g.upper = g.lower - 1 + g.bins := by
  unfold upper lower lastBin firstBin bins
  split
  · next h =>
    rw [h]
    omega
  · ring

end Grouping

/-! ### Ranges -/

namespace Node

variable {β : Type}

/-- The number of base bins in the local ranges of nodes. -/
def covered (ns : List (Node β)) : Int := (ns.map fun n => n.grouping.bins).sum

@[simp] theorem covered_nil : covered ([] : List (Node β)) = 0 := rfl

@[simp] theorem covered_cons (n : Node β) (ns : List (Node β)) :
    covered (n :: ns) = n.grouping.bins + covered ns := by
  simp [covered]

@[simp] theorem covered_append (ns ns' : List (Node β)) :
    covered (ns ++ ns') = covered ns + covered ns' := by
  simp [covered]

theorem totalWidth_gives (total : Int) (ns : List (Node β)) :
    Gives (totalWidth total ns) (total + covered ns) := by
  induction ns generalizing total with
  | nil => simpa [totalWidth] using gives_ok total
  | cons n ns ih =>
    refine n.grouping.width_gives.bind ((gives_add _ _).bind ?_)
    rw [covered_cons, ← Int.add_assoc]
    exact ih (total + n.grouping.bins)

variable [BaseAxis β]

/-- The root over a base axis, which groups nothing and covers the whole axis. -/
def root (base : β) : Node β :=
  let count := ofCount (BaseAxis.binCount base)
  ⟨some base, ⟨1, 0, 1, count, count, Grouping.one_le_one⟩, []⟩

/-- The root is made without an overflow. -/
theorem ofBase_eq (base : β) : ofBase base = .ok (root base) := by
  have hfit : Grouping.fit (BaseAxis.binCount base) 1 0 =
      .ok (ofCount (BaseAxis.binCount base)) := by
    unfold Grouping.fit Coordinate.sub
    rw [Int.sub_zero, checked_of_inRange (inRange_ofCount _), ok_bind, Int.ediv_one, pure_eq_ok]
  unfold ofBase withBase blank Grouping.identity root
  dsimp only
  rw [hfit, ok_bind, pure_eq_ok, if_pos (by decide)]

/-- The place of the next range. -/
def placed (n : Node β) (base : β) (size : Int) (bins : Option Int) : Placement :=
  let count := BaseAxis.binCount base
  if n.isLeaf then
    let parent := n.grouping.rebased size
    ⟨parent.skip, parent.low,
      match bins with
      | some b => b
      | none => parent.lastGroup count size parent.skip,
      parent⟩
  else
    let before := covered n.children
    let low := before / size + 1
    let skip := before % size + n.grouping.skip
    ⟨skip, low,
      match bins with
      | some b => low + b - 1
      | none => n.grouping.lastGroup count size skip,
      n.grouping⟩

theorem place_gives (n : Node β) (base : β) (size : Int) (bins : Option Int) :
    Gives (n.place base size bins) (n.placed base size bins) := by
  unfold place placed
  split
  · refine (n.grouping.rebase_gives size).bind ?_
    cases bins with
    | some b => exact gives_ok _
    | none => exact (Grouping.lastWithin_gives _ _ _ _).bind (gives_pure _)
  · have hbefore : Gives (totalWidth 0 n.children) (covered n.children) := by
      simpa using totalWidth_gives 0 n.children
    refine hbefore.bind ((gives_add _ _).bind ?_)
    -- A skip offset of zero is not added, which makes no difference.
    by_cases h : n.grouping.skip = 0
    · simp only [h, ↓reduceIte, Int.add_zero]
      refine (gives_ok _).bind ?_
      cases bins with
      | some b => exact (gives_add _ _).bind ((gives_sub _ _).bind (gives_pure _))
      | none => exact (Grouping.lastWithin_gives _ _ _ _).bind (gives_pure _)
    · simp only [h, ↓reduceIte]
      refine (gives_add _ _).bind ?_
      cases bins with
      | some b => exact (gives_add _ _).bind ((gives_sub _ _).bind (gives_pure _))
      | none => exact (Grouping.lastWithin_gives _ _ _ _).bind (gives_pure _)

end Node

end Binning
