import Binning.Proofs.Exact

/-!
# What an accepted child or range does

A child is accepted if it can be made and does not end beyond its parent, and then
it is the last child. `Binning.Node.stage_settle` and `Binning.Node.appendRange_outcome`
say what becomes of a child and of a range, step by step and with the cause of a refusal.
`Binning.Node.stage_settle_eq_ok` and `Binning.Node.appendRange_eq_ok` name the conditions
of success, in both directions, and there is no other.

Over all integers this reads shorter: an accepted range has added a childless node
at the place `Binning.Node.placed`, its end is within that of its parent, and both
have been calculated without an overflow
(`Binning.Node.exists_child_of_appendRange`). The rest of the theory of ranges uses
only this.
-/

namespace Binning

open Outcome

namespace Node

variable {β : Type}

/-- The node with another grouping, and with a childless node over the same axis as
its last child. -/
def grown (n : Node β) (parent child : Grouping) : Node β :=
  ⟨n.base, parent, n.children ++ [⟨n.base, child, []⟩]⟩

variable [BaseAxis β]

/-- **What becomes of a child** of groups over an axis: it is added unless it ends beyond
its parent. -/
theorem stage_settle {n : Node β} {base : β} {size : Int} (hsize : 1 ≤ size)
    (hbase : n.base = some base) (parent : Grouping) (skip low : Int) (high : Option Int) :
    (n.stage parent size skip low high >>= n.settle) = (do
      let g ← Grouping.make (BaseAxis.binCount base) size skip low (some (high.getD parent.high))
        hsize
      let stop ← g.stop
      let limit ← parent.stop
      if stop ≤ limit then .ok (n.grown parent g) else refuse (.containment stop limit)) := by
  rw [stage, hbase]
  dsimp only
  rw [dif_pos hsize]
  simp only [bind_assoc]
  refine bind_congr fun g => bind_congr fun stop => bind_congr fun limit => ?_
  by_cases hle : stop ≤ limit
  · simp [hle, settle, grown, hbase]
  · simp [hle, settle]

/-- **A child is accepted** exactly if it can be made and fits. -/
theorem stage_settle_eq_ok {n m : Node β} {parent : Grouping} {size skip low : Int}
    {high : Option Int} :
    (n.stage parent size skip low high >>= n.settle) = .ok m ↔
      ∃ (hsize : 1 ≤ size) (base : β) (g : Grouping) (stop limit : Int), n.base = some base ∧
        Grouping.make (BaseAxis.binCount base) size skip low (some (high.getD parent.high)) hsize =
          .ok g ∧
        g.stop = .ok stop ∧ parent.stop = .ok limit ∧ stop ≤ limit ∧ m = n.grown parent g := by
  cases hbase : n.base with
  | none => simp [stage, hbase, settle]
  | some base =>
    by_cases hsize : 1 ≤ size
    · rw [stage_settle hsize hbase]
      simp only [bind_eq_ok]
      constructor
      · rintro ⟨g, hg, stop, hstop, limit, hlimit, h⟩
        split at h
        · next hle =>
          exact ⟨hsize, base, g, stop, limit, rfl, hg, hstop, hlimit, hle, (Except.ok.inj h).symm⟩
        · exact absurd h refuse_ne_ok
      · rintro ⟨_, base', g, stop, limit, hb, hg, hstop, hlimit, hle, rfl⟩
        obtain rfl : base = base' := Option.some.inj hb
        exact ⟨g, hg, stop, hstop, limit, hlimit, if_pos hle⟩
    · simp [stage, hbase, hsize, settle]

theorem appendChild_outcome (n : Node β) (size skip low : Int) (high : Option Int) :
    (n.appendChild size skip low high).outcome =
      (n.stage n.grouping size skip low high >>= n.settle) :=
  Run.outcome_bind _ _

/-- **What becomes of a range** of groups over an axis: it is placed, and then it is added
unless it ends beyond its parent. -/
theorem appendRange_outcome {n : Node β} {base : β} {size : Int} (hsize : 1 ≤ size)
    (hbase : n.base = some base) (bins : Option Int) :
    (n.appendRange size bins).outcome = (do
      let p ← n.place base size bins
      n.stage p.parent size p.skip p.low (some p.high) >>= n.settle) := by
  unfold appendRange stageRange
  rw [if_pos hsize, hbase]
  simp only [Run.outcome_bind, Run.outcome_liftM, Run.outcome_emit]
  cases n.place base size bins with
  | error e => rfl
  | ok p => rfl

/-- **A range is accepted** exactly if it has a place, the child can be made there,
and it fits. -/
theorem appendRange_eq_ok {n m : Node β} {size : Int} {bins : Option Int} :
    (n.appendRange size bins).outcome = .ok m ↔
      ∃ (hsize : 1 ≤ size) (base : β) (p : Placement) (g : Grouping) (stop limit : Int),
        n.base = some base ∧ n.place base size bins = .ok p ∧
        Grouping.make (BaseAxis.binCount base) size p.skip p.low (some p.high) hsize = .ok g ∧
        g.stop = .ok stop ∧ p.parent.stop = .ok limit ∧ stop ≤ limit ∧ m = n.grown p.parent g := by
  by_cases hsize : 1 ≤ size
  · cases hbase : n.base with
    | none => simp [appendRange, stageRange, hsize, hbase, Run.outcome_bind_eq_ok, settle]
    | some base =>
      rw [appendRange_outcome hsize hbase, bind_eq_ok]
      simp only [stage_settle_eq_ok]
      constructor
      · rintro ⟨p, hp, _, base', g, stop, limit, hb, hg, hfits⟩
        obtain rfl : base = base' := Option.some.inj (hbase ▸ hb)
        exact ⟨hsize, base, p, g, stop, limit, rfl, hp, hg, hfits⟩
      · rintro ⟨_, base', p, g, stop, limit, hb, hp, hg, hfits⟩
        obtain rfl : base = base' := Option.some.inj hb
        exact ⟨p, hp, hsize, base, g, stop, limit, hbase, hg, hfits⟩
  · simp [appendRange, stageRange, hsize, Run.outcome_bind_eq_ok, settle]

/-- **What an accepted range adds**: a childless node at the place of the next
range, which ends within its parent. Both ends are known. -/
theorem exists_child_of_appendRange {n m : Node β} {size : Int} {bins : Option Int}
    (h : (n.appendRange size bins).outcome = .ok m) :
    ∃ (hsize : 1 ≤ size) (base : β) (p : Placement) (g : Grouping), n.base = some base ∧
      p = n.placed base size bins ∧
      g = Grouping.made (BaseAxis.binCount base) size p.skip p.low (some p.high) hsize ∧
      g.stop = .ok g.upper ∧ p.parent.stop = .ok p.parent.upper ∧ g.upper ≤ p.parent.upper ∧
      m = n.grown p.parent g := by
  obtain ⟨hsize, base, p, g, stop, limit, hbase, hp, hg, hstop, hlimit, hle, hm⟩ :=
    appendRange_eq_ok.mp h
  have hup : stop = g.upper := g.stop_gives.eq_of_ok hstop
  have hlim : limit = p.parent.upper := p.parent.stop_gives.eq_of_ok hlimit
  exact ⟨hsize, base, p, g, hbase, (n.place_gives base size bins).eq_of_ok hp,
    (Grouping.make_gives _ _ _ _ _ _).eq_of_ok hg, hup ▸ hstop, hlim ▸ hlimit, hup ▸ hlim ▸ hle, hm⟩

/-- **What a refused range would have added** ends beyond its parent. -/
theorem upper_lt_of_appendRange {n : Node β} {base : β} {size : Int} {bins : Option Int}
    {cause : BinningError} (hsize : 1 ≤ size) (hbase : n.base = some base)
    (h : (n.appendRange size bins).outcome = .error (.refused cause)) :
    (n.placed base size bins).parent.upper <
      (Grouping.made (BaseAxis.binCount base) size (n.placed base size bins).skip
        (n.placed base size bins).low (some (n.placed base size bins).high) hsize).upper := by
  rw [appendRange_outcome hsize hbase] at h
  have hstage := (n.place_gives base size bins).refused_of_bind h
  rw [stage_settle hsize hbase] at hstage
  have hmade := (Grouping.make_gives _ _ _ _ _ _).refused_of_bind hstage
  have hstop := (Grouping.stop_gives _).refused_of_bind hmade
  have hlimit := (Grouping.stop_gives _).refused_of_bind hstop
  split at hlimit
  · cases hlimit
  · next hle => exact not_le.mp hle

/-- A range is accepted or refused if nothing overflows on the way. -/
theorem appendRange_of_known {n : Node β} {base : β} {size : Int} {bins : Option Int}
    {p : Placement} {g : Grouping} {stop limit : Int} (hsize : 1 ≤ size)
    (hbase : n.base = some base) (hplace : n.place base size bins = .ok p)
    (hmake : Grouping.make (BaseAxis.binCount base) size p.skip p.low (some p.high) hsize = .ok g)
    (hstop : g.stop = .ok stop) (hlimit : p.parent.stop = .ok limit) :
    (∃ m, (n.appendRange size bins).outcome = .ok m) ∨
      ∃ cause, (n.appendRange size bins).outcome = .error (.refused cause) := by
  rw [appendRange_outcome hsize hbase, hplace, ok_bind, stage_settle hsize hbase, Option.getD_some,
    hmake, ok_bind, hstop, ok_bind, hlimit, ok_bind]
  split
  · exact Or.inl ⟨_, rfl⟩
  · exact Or.inr ⟨_, rfl⟩

end Node

end Binning
