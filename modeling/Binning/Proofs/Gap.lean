import Binning.Proofs.Building
import Binning.Proofs.Contiguity

/-!
# What validation lets through

The children of a validated tree should tile a stretch of the base axis: each one should
start at the base bin after the end of the one before it. For trees built from a
description this is so exactly if the first range of the dimension groups nothing or is
its only one (`Binning.Config.buildCutSet_gap`).

Otherwise validation can still succeed, after a first range in groups of two, and then it
is one bin off: it shifts the start of a child by the `low` of its parent, which the first
range has moved to `0`, but the children did not move with it. Every child then starts
one base bin too late, and a base bin is left out between any two
(`Binning.Config.buildCutSet_skips_bin`).
-/

namespace Binning

open Outcome

namespace Node

variable {β : Type} [BaseAxis β]

/-- The children that validation has followed are a chain, and it has gone from the start of each
one to the base bin after its end. -/
theorem chain_of_follow {low : Int} {index : Nat} {a : Node β} {rest : List (Node β)}
    (h : (follow low index (a.grouping.upper + 1) rest).outcome = .ok true) :
    (a :: rest).IsChain (Adjoins low) ∧ ∀ c ∈ rest,
      c.grouping.start = .ok c.grouping.lower ∧ c.next = .ok (c.grouping.upper + 1) := by
  induction rest generalizing index a with
  | nil => simp
  | cons b rest ih =>
    obtain ⟨hshifted, next, hnext, hfollow⟩ := follow_cons_eq_true.mp h
    have hab : Adjoins low a b := ((b.shiftedStart_gives low).eq_of_ok hshifted).symm
    obtain ⟨start, hstart, -⟩ := bind_eq_ok.mp hshifted
    obtain rfl := b.next_gives.eq_of_ok hnext
    obtain ⟨hchain, hends⟩ := ih hfollow
    refine ⟨List.isChain_cons_cons.mpr ⟨hab, hchain⟩, fun c hc => ?_⟩
    rcases List.mem_cons.mp hc with rfl | hc
    · exact ⟨c.grouping.start_gives.ok_of_ok hstart, hnext⟩
    · exact hends c hc

/-- **What validation has found**: the children are a chain, and all their ends are known but for
the start of the first one. -/
theorem chain_of_validateContiguity {n first : Node β} {rest : List (Node β)}
    (h : n.validateContiguity.outcome = .ok true) (hc : n.children = first :: rest) :
    n.children.IsChain (Adjoins n.grouping.low) ∧ first.next = .ok (first.grouping.upper + 1) ∧
      ∀ c ∈ rest,
        c.grouping.start = .ok c.grouping.lower ∧ c.next = .ok (c.grouping.upper + 1) := by
  rw [validateContiguity, hc] at h
  obtain ⟨next, hnext, hfollow⟩ := Run.outcome_bind_eq_ok.mp h
  have hnext : first.next = .ok next := hnext
  obtain rfl := first.next_gives.eq_of_ok hnext
  obtain ⟨hchain, hends⟩ := chain_of_follow hfollow
  rw [hc]
  exact ⟨hchain, hnext, hends⟩

/-- The start of each later child is known, and the child adjoins the one before it. -/
theorem adjoins_of_validateContiguity {n : Node β} (h : n.validateContiguity.outcome = .ok true)
    {before after : List (Node β)} {a b : Node β} (hc : n.children = before ++ a :: b :: after) :
    b.grouping.start = .ok b.grouping.lower ∧ Adjoins n.grouping.low a b := by
  obtain ⟨first, rest, hcons⟩ := List.exists_cons_of_ne_nil (show n.children ≠ [] by simp [hc])
  obtain ⟨hchain, -, hends⟩ := chain_of_validateContiguity h hcons
  refine ⟨(hends b ?_).1, List.isChain_iff_forall_rel_of_append_cons_cons.mp hchain hc⟩
  rw [hc] at hcons
  cases before with
  | nil => simp [← (List.cons.inj hcons).2]
  | cons _ _ => simp [← (List.cons.inj hcons).2]

/-- **The gap between two children**, on a fresh root that passes the validation. -/
theorem Ranged.gap {m : Node β} (hm : Ranged 1 m) (hvalid : m.validateContiguity.outcome = .ok true)
    {first : Node β} {rest : List (Node β)} (hfirst : m.children = first :: rest)
    {before after : List (Node β)} {a b : Node β} (hc : m.children = before ++ a :: b :: after) :
    a.grouping.stop = .ok a.grouping.upper ∧
      b.grouping.start = .ok (a.grouping.upper + 1 + if first.grouping.size = 1 then 0 else 1) := by
  obtain ⟨hstart, hadjoins⟩ := adjoins_of_validateContiguity hvalid hc
  refine ⟨hm.stop_eq a (by simp [hc]), ?_⟩
  rw [hstart]
  congr 1
  -- The gap is what the `low` of the root has moved away from `1`.
  unfold Adjoins at hadjoins
  split
  · next hone =>
    rw [(hm.rebased first rest hfirst).2, hone, Int.ediv_one] at hadjoins
    omega
  · next hne =>
    have hpos := first.grouping.size_pos
    rw [low_eq_zero hm hfirst (by omega)] at hadjoins
    omega

end Node

namespace Config

/-- **The gaps of a validated tree.** Between any two consecutive children of a tree that
was built from a description and passes the validation there is no gap if the first range
groups nothing, and otherwise a gap of exactly one base bin. So the children tile a
stretch of the axis exactly if the first range groups nothing or is the only one. -/
theorem buildCutSet_gap {c : Config} {axes : List Axis} {cuts : CutSet Axis}
    (h : (c.buildCutSet axes).outcome = .ok cuts) {i : Nat} {d : Dimension} {t : Node Axis}
    (hd : c.dimensions[i]? = some d) (ht : cuts.trees[i]? = some t)
    (hvalid : t.validateContiguity.outcome = .ok true) :
    ∃ first rest, d.ranges = first :: rest ∧
      (∀ before a b after, t.children = before ++ a :: b :: after →
        ∃ stop, a.grouping.stop = .ok stop ∧
          b.grouping.start = .ok (stop + 1 + if first.size = 1 then 0 else 1)) ∧
      ((∀ before a b after, t.children = before ++ a :: b :: after →
        ∃ stop, a.grouping.stop = .ok stop ∧ b.grouping.start = .ok (stop + 1)) ↔
          first.size = 1 ∨ rest = []) := by
  obtain ⟨axis, -, hrun⟩ := exists_axis_of_buildCutSet h hd ht
  obtain ⟨hranged, hsizes⟩ := Node.ranged_of_tryRanges rfl hrun
  have hm : t.Ranged 1 := hranged
  have hne := (of_decide_eq_true ((Node.validateContiguity_gives hm.leaf).eq_of_ok hvalid).symm).1
  obtain ⟨child, children, hchildren⟩ := List.exists_cons_of_ne_nil hne
  -- The sizes of the children are those of the ranges, so there is a first range too.
  rw [Node.sizes, hchildren, List.map_cons] at hsizes
  obtain ⟨first, rest, hranges, hfirst, hrest⟩ := List.map_eq_cons_iff.mp hsizes.symm
  have hgap := fun before a b after (hc : t.children = before ++ a :: b :: after) =>
    hm.gap hvalid hchildren hc
  refine ⟨first, rest, hranges, fun before a b after hc => ?_, ⟨fun hall => ?_, fun hcond => ?_⟩⟩
  · rw [hfirst]
    exact ⟨_, hgap before a b after hc⟩
  · cases rest with
    | nil => exact Or.inr rfl
    | cons second rest =>
      obtain ⟨b, after, hb⟩ : ∃ b after, children = b :: after := by
        cases children with
        | nil => simp at hrest
        | cons b after => exact ⟨b, after, rfl⟩
      have hc : t.children = [] ++ child :: b :: after := by rw [hchildren, hb, List.nil_append]
      obtain ⟨stop, hstop, hstart⟩ := hall [] child b after hc
      obtain ⟨hstop', hstart'⟩ := hgap [] child b after hc
      have hsame := Except.ok.inj (hstop.symm.trans hstop')
      have hnext := Except.ok.inj (hstart.symm.trans hstart')
      rw [hsame, ← hfirst] at hnext
      left
      by_contra hsize
      rw [if_neg hsize] at hnext
      omega
  · intro before a b after hc
    obtain ⟨hstop, hstart⟩ := hgap before a b after hc
    rcases hcond with hone | hnil
    · rw [← hfirst, if_pos hone, Int.add_zero] at hstart
      exact ⟨_, hstop, hstart⟩
    · obtain rfl : children = [] := by simpa [hnil] using hrest.symm
      have hlen := congrArg List.length (hchildren.symm.trans hc)
      simp only [List.length_cons, List.length_append, List.length_nil] at hlen
      omega

/-- Five bins of width one, from `0` to `5`. -/
def fiveEdges : List Double :=
  [⟨0⟩, ⟨0x3FF0000000000000⟩, ⟨0x4000000000000000⟩, ⟨0x4008000000000000⟩, ⟨0x4010000000000000⟩,
    ⟨0x4014000000000000⟩]

/-- The description of a single dimension of five bins, with ranges. -/
def fiveBins (ranges : List RangeSpec) : Config :=
  ⟨[⟨none, .edges fiveEdges, none, ranges⟩]⟩

/-- Two single bins and then a group of two pass the validation without a gap. -/
theorem buildCutSet_gap_unit : ∃ (cuts : CutSet Axis) (t : Node Axis),
    ((fiveBins [⟨1, some 2⟩, ⟨2, some 1⟩]).buildCutSet [⟨fiveEdges, none⟩]).outcome = .ok cuts ∧
    cuts.trees[0]? = some t ∧ t.validateContiguity.outcome = .ok true ∧
    ∀ before a b after, t.children = before ++ a :: b :: after →
      ∃ stop, a.grouping.stop = .ok stop ∧ b.grouping.start = .ok (stop + 1) := by
  have hbuilt : ((fiveBins [⟨1, some 2⟩, ⟨2, some 1⟩]).buildCutSet [⟨fiveEdges, none⟩]).outcome =
      .ok ⟨[⟨some ⟨fiveEdges, none⟩, ⟨1, 0, 1, 6, 5, by decide⟩,
        [⟨some ⟨fiveEdges, none⟩, ⟨1, 0, 1, 2, 5, by decide⟩, []⟩,
          ⟨some ⟨fiveEdges, none⟩, ⟨2, 0, 2, 2, 2, by decide⟩, []⟩]⟩]⟩ := by rfl
  obtain ⟨first, rest, hranges, -, htiled⟩ := buildCutSet_gap hbuilt (i := 0) rfl rfl (by rfl)
  obtain ⟨rfl, -⟩ := List.cons.inj hranges
  exact ⟨_, _, hbuilt, rfl, by rfl, htiled.mpr (Or.inl rfl)⟩

/-- **A base bin that validation does not miss.** After a group size of two and single bins,
the first child ends at base bin `3` and the second one starts at `5`, and the tree is valid. -/
theorem buildCutSet_skips_bin : ∃ (cuts : CutSet Axis) (t a b : Node Axis),
    (fiveBins [⟨2, some 1⟩, ⟨1, some 1⟩]).buildAxes = .ok [⟨fiveEdges, none⟩] ∧
    ((fiveBins [⟨2, some 1⟩, ⟨1, some 1⟩]).buildCutSet [⟨fiveEdges, none⟩]).outcome = .ok cuts ∧
    cuts.trees = [t] ∧ t.validateContiguity.outcome = .ok true ∧ t.children = [a, b] ∧
    a.grouping.stop = .ok 3 ∧ b.grouping.start = .ok 5 :=
  ⟨⟨[⟨some ⟨fiveEdges, none⟩, ⟨1, 1, 0, 5, 5, by decide⟩,
      [⟨some ⟨fiveEdges, none⟩, ⟨2, 1, 0, 1, 2, by decide⟩, []⟩,
        ⟨some ⟨fiveEdges, none⟩, ⟨1, 1, 5, 5, 4, by decide⟩, []⟩]⟩]⟩,
    _, _, _, by rfl, by rfl, rfl, by rfl, rfl, by rfl, by rfl⟩

end Config

end Binning
