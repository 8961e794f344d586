import Binning.Proofs.Attempts
import Binning.Proofs.Exact
import Mathlib.Data.List.Forall2

/-!
# What a cut set is built of

A cut set is built dimension by dimension, and nothing one dimension does is seen by
another. If it can be built, its trees belong one by one to the dimensions and their
axes (`Binning.Config.forall₂_of_buildTreesFrom`), and each tree is the root over its
axis with all ranges of its dimension added.

So every fact about ranges on a fresh root is a fact about the trees of a cut set
(`Binning.Config.exists_axis_of_buildCutSet`), and the ranges of a dimension are then
those that were accepted.
-/

namespace Binning

namespace Dimension

/-- The tree of a dimension is the root with all of its ranges. -/
theorem addRanges_of_buildTree {d : Dimension} {index : Nat} {axis : Axis} {t : Node Axis}
    (h : (d.buildTree index axis).outcome = .ok t) :
    (addRanges (Node.root axis) d.ranges).outcome = .ok t := by
  obtain ⟨n, hroot, hrest⟩ := Run.outcome_bind_eq_ok.mp h
  obtain ⟨t', hranges, hrest⟩ := Run.outcome_bind_eq_ok.mp hrest
  obtain ⟨_, _, hlast⟩ := Run.outcome_bind_eq_ok.mp hrest
  obtain rfl : t' = t := Except.ok.inj hlast
  obtain rfl : Node.root axis = n := Except.ok.inj ((Node.ofBase_eq axis).symm.trans hroot)
  exact hranges

end Dimension

namespace Config

/-- **Trees and dimensions correspond**: each tree is built from its own dimension and
axis. -/
theorem forall₂_of_buildTreesFrom {index : Nat} {ds : List (Dimension × Axis)}
    {ts : List (Node Axis)} (h : (buildTreesFrom index ds).outcome = .ok ts) :
    List.Forall₂ (fun d t => (Dimension.addRanges (Node.root d.2) d.1.ranges).outcome = .ok t)
      ds ts := by
  induction ds generalizing index ts with
  | nil =>
    obtain rfl : [] = ts := Except.ok.inj h
    exact .nil
  | cons d ds ih =>
    obtain ⟨t, ht, hrest⟩ := Run.outcome_bind_eq_ok.mp h
    obtain ⟨ts', hts, hlast⟩ := Run.outcome_bind_eq_ok.mp hrest
    obtain rfl : t :: ts' = ts := Except.ok.inj hlast
    exact .cons (Dimension.addRanges_of_buildTree ht) (ih hts)

/-- A cut set that is built has one tree for each dimension and axis. -/
theorem forall₂_of_buildCutSet {c : Config} {axes : List Axis} {cuts : CutSet Axis}
    (h : (c.buildCutSet axes).outcome = .ok cuts) :
    axes.length = c.dimensions.length ∧
      List.Forall₂ (fun d t => (Dimension.addRanges (Node.root d.2) d.1.ranges).outcome = .ok t)
        (c.dimensions.zip axes) cuts.trees := by
  unfold buildCutSet at h
  split at h
  · next hlen =>
    obtain ⟨ts, hts, hlast⟩ := Run.outcome_bind_eq_ok.mp h
    obtain rfl : ⟨ts⟩ = cuts := Except.ok.inj hlast
    exact ⟨hlen, forall₂_of_buildTreesFrom hts⟩
  · cases h

/-- **The tree of a dimension in a cut set** is the root over its axis with all of its
ranges accepted. -/
theorem exists_axis_of_buildCutSet {c : Config} {axes : List Axis} {cuts : CutSet Axis}
    (h : (c.buildCutSet axes).outcome = .ok cuts) {i : Nat} {d : Dimension} {t : Node Axis}
    (hd : c.dimensions[i]? = some d) (ht : cuts.trees[i]? = some t) :
    ∃ axis, axes[i]? = some axis ∧ (Node.root axis).tryRanges d.ranges = .ok (d.ranges, t) := by
  obtain ⟨hlen, hall⟩ := forall₂_of_buildCutSet h
  obtain ⟨hi, hd⟩ := List.getElem?_eq_some_iff.mp hd
  obtain ⟨hi', ht⟩ := List.getElem?_eq_some_iff.mp ht
  have haxis : i < axes.length := by omega
  have hzip : i < (c.dimensions.zip axes).length := by
    rw [List.length_zip]
    omega
  refine ⟨axes[i], List.getElem?_eq_getElem haxis, Dimension.tryRanges_of_addRanges ?_⟩
  have hbuilt := hall.get hzip hi'
  rw [List.get_eq_getElem, List.get_eq_getElem, ht, List.getElem_zip, hd] at hbuilt
  exact hbuilt

end Config

end Binning
