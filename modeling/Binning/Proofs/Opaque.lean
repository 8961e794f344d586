import Binning.Proofs.Contiguity
import Binning.Proofs.Growth
import Binning.Proofs.Tiling

/-!
# What a node sees of its children

A node is validated and flattened without a look at its grandchildren: nothing enters but
its axis, its own grouping and the groupings of its children (`Binning.Node.outline`). Nodes
with the same outline imply the same edges (`Binning.Node.flattenedEdges_of_outline`) and are
contiguous alike (`Binning.Node.validateContiguity_of_outline`). Only the description of a
fault shows more of a child, and it can fail where there is more to show.

So a child can be divided, and divided further, without its parent noticing, as long as the
grouping of the child stays what it is. This fails for the first range of the child, and for
nothing else (`Binning.Node.outline_of_appendAt`). The first range rebases the child, and a
local range that is rebased has more grouped bins than before
(`Binning.Grouping.span_lt_span_rebased`): the parent then implies more edges.

Both sides are put together in `Binning.Node.tryAppends_below`.
-/

namespace Binning

open Outcome

/-- **A local range that is rebased has more grouped bins**, if it starts at the underflow bin
or after it and is not counted backwards. -/
theorem Grouping.span_lt_span_rebased {g : Grouping} {size : Int} (hsize : 1 ≤ size)
    (hlow : 0 ≤ g.low) (hhigh : g.low ≤ g.high + 1) :
    Coordinate.span g.low g.high < Coordinate.span (g.rebased size).low (g.rebased size).high := by
  have hdiv := Int.mul_ediv_add_emod g.low size
  have hquot : 0 ≤ g.low / size := Int.ediv_nonneg hlow (by omega)
  have hle : 1 * (g.low / size) ≤ size * (g.low / size) :=
    Int.mul_le_mul_of_nonneg_right hsize hquot
  unfold Coordinate.span rebased
  dsimp only
  omega

namespace Node

variable {β : Type}

/-! ### The outline of a node -/

/-- **What a node is validated and flattened by**: its axis, its grouping and the groupings of
its children. -/
def outline (n : Node β) : Option β × Grouping × List Grouping :=
  (n.base, n.grouping, n.children.map Node.grouping)

/-- What is below the children does not show in the outline. -/
theorem outline_set {n c c' : Node β} {i : Nat} (hc : n.children[i]? = some c)
    (h : c'.grouping = c.grouping) :
    outline { n with children := n.children.set i c' } = n.outline := by
  have hset : (n.children.set i c').map Node.grouping = n.children.map Node.grouping := by
    refine List.ext_getElem? fun j => ?_
    rw [List.getElem?_map, List.getElem?_map]
    by_cases hij : i = j
    · obtain rfl := hij
      rw [List.getElem?_set_self (List.getElem?_eq_some_iff.mp hc).1, hc, Option.map_some,
        Option.map_some, h]
    · rw [List.getElem?_set_ne hij]
  rw [outline, outline, hset]

section Outline

variable [BaseAxis β] {ns ms : List (Node β)}

theorem upEdgesOfAll_of_map_grouping (base : β) (taken : Nat)
    (h : ns.map Node.grouping = ms.map Node.grouping) :
    upEdgesOfAll base taken ns = upEdgesOfAll base taken ms := by
  induction ns generalizing ms taken with
  | nil =>
    obtain rfl : ms = [] := List.map_eq_nil_iff.mp h.symm
    rfl
  | cons n ns ih =>
    obtain ⟨m, ms, rfl, hhead, hrest⟩ := List.map_eq_cons_iff.mp h.symm
    have hspan : n.span = m.span := by rw [span, span, hhead]
    have hup : upEdges base n = upEdges base m := by rw [upEdges, upEdges, hspan, hhead]
    rw [upEdgesOfAll, upEdgesOfAll, hspan, hup, ih _ hrest.symm]

theorem follow_of_map_grouping {low expected : Int} {index : Nat}
    (h : ns.map Node.grouping = ms.map Node.grouping) :
    (follow low index expected ns).outcome = .ok true ↔
      (follow low index expected ms).outcome = .ok true := by
  induction ns generalizing ms index expected with
  | nil =>
    obtain rfl : ms = [] := List.map_eq_nil_iff.mp h.symm
    rfl
  | cons n ns ih =>
    obtain ⟨m, ms, rfl, hhead, hrest⟩ := List.map_eq_cons_iff.mp h.symm
    have hstart : n.shiftedStart low = m.shiftedStart low := by
      rw [shiftedStart, shiftedStart, hhead]
    have hnext : n.next = m.next := by rw [next, next, hhead]
    rw [follow_cons_eq_true, follow_cons_eq_true, hstart, hnext]
    exact and_congr_right fun _ => exists_congr fun _ => and_congr_right fun _ => ih hrest.symm

variable {n m : Node β} (h : n.outline = m.outline)

include h

/-- **Nodes with the same outline imply the same edges.** -/
theorem flattenedEdges_of_outline : n.flattenedEdges = m.flattenedEdges := by
  obtain ⟨hbase, hrest⟩ := Prod.mk.inj h
  obtain ⟨hgroup, hchildren⟩ := Prod.mk.inj hrest
  rw [flattenedEdges, flattenedEdges, hbase, hgroup]
  cases hc : n.children with
  | nil =>
    rw [hc] at hchildren
    rw [List.map_eq_nil_iff.mp hchildren.symm]
  | cons first rest =>
    rw [hc] at hchildren
    obtain ⟨first', rest', hc', hhead, -⟩ := List.map_eq_cons_iff.mp hchildren.symm
    rw [hc'] at hchildren ⊢
    cases m.base with
    | none => rfl
    | some base =>
      dsimp only
      rw [upEdgesOfAll_of_map_grouping base 1 hchildren, hhead]

/-- **Nodes with the same outline are contiguous alike.** -/
theorem validateContiguity_of_outline :
    n.validateContiguity.outcome = .ok true ↔ m.validateContiguity.outcome = .ok true := by
  obtain ⟨-, hrest⟩ := Prod.mk.inj h
  obtain ⟨hgroup, hchildren⟩ := Prod.mk.inj hrest
  rw [validateContiguity, validateContiguity, hgroup]
  cases hc : n.children with
  | nil =>
    rw [hc] at hchildren
    rw [List.map_eq_nil_iff.mp hchildren.symm]
  | cons first rest =>
    rw [hc] at hchildren
    obtain ⟨first', rest', hc', hhead, htail⟩ := List.map_eq_cons_iff.mp hchildren.symm
    have hnext : first.next = first'.next := by rw [next, next, hhead]
    rw [hc']
    dsimp only
    rw [Run.outcome_bind_eq_ok, Run.outcome_bind_eq_ok, hnext]
    exact exists_congr fun _ => and_congr_right fun _ => follow_of_map_grouping htail.symm

end Outline

/-- **Two states of a node are alike**: they imply the same edges, they are contiguous alike,
and where both are validated the verdict is the same. -/
structure Alike [BaseAxis β] (n n' : Node β) : Prop where
  edges : n'.flattenedEdges = n.flattenedEdges
  contiguous :
    n'.validateContiguity.outcome = .ok true ↔ n.validateContiguity.outcome = .ok true
  verdict : ∀ v v', n.validateContiguity.outcome = .ok v → n'.validateContiguity.outcome = .ok v' →
    v' = v

/-- States of a node with the same outline are alike. -/
theorem alike_of_outline [BaseAxis β] {n n' : Node β} (h : n'.outline = n.outline) :
    Alike n n' where
  edges := flattenedEdges_of_outline h
  contiguous := validateContiguity_of_outline h
  verdict v v' hv hv' := by
    have hiff := validateContiguity_of_outline h
    rw [hv, hv', Except.ok.injEq, Except.ok.injEq] at hiff
    exact Bool.eq_iff_iff.mpr hiff

/-! ### Additions below a node -/

/-- The addition is the first range of child number `i`, and not of a node further down. -/
def IsFirstRange (n : Node β) (i : Nat) (below : List Nat) (a : Append) : Prop :=
  below = [] ∧ ∃ c size bins, n.children[i]? = some c ∧ c.children = [] ∧ a = .range size bins

section Below

/-- A child with more grouped bins in place of another makes more grouped bins. -/
theorem length_groupedBins_lt_set {ns : List (Node β)} {i : Nat} {c c' : Node β}
    (hc : ns[i]? = some c) (h : c.span < c'.span) :
    (groupedBins ns).length < (groupedBins (ns.set i c')).length := by
  induction ns generalizing i with
  | nil => simp at hc
  | cons n ns ih =>
    cases i with
    | zero =>
      obtain rfl : n = c := Option.some.inj hc
      rw [List.set_cons_zero, groupedBins_cons, groupedBins_cons]
      simpa using h
    | succ i =>
      have := ih hc
      rw [List.set_cons_succ, groupedBins_cons, groupedBins_cons]
      simpa using this

variable [BaseAxis β] {n n' : Node β} {i : Nat} {below : List Nat} {a : Append}

/-- **An addition below a node leaves its outline** alone, unless it is the first range of a
child. -/
theorem outline_of_appendAt (h : (n.appendAt (i :: below) a).outcome = .ok n')
    (hfirst : ¬IsFirstRange n i below a) : n'.outline = n.outline := by
  obtain ⟨c, c', hc, hc', rfl⟩ := appendAt_cons_eq_ok.mp h
  refine outline_set hc ?_
  rw [(appendAt_grouping hc').2.2]
  split
  · next hnil =>
    cases a with
    | child size skip low high => rfl
    | range size bins =>
      exact regrouped_of_ne_nil (fun hleaf => hfirst ⟨hnil, c, size, bins, hc, hleaf, rfl⟩) _
  · rfl

/-- **The first range of a child makes more edges**, if there are any edges, and if the child
starts at the underflow bin or after it and is not counted backwards. -/
theorem length_lt_of_isFirstRange (h : (n.appendAt (i :: below) a).outcome = .ok n')
    (hfirst : IsFirstRange n i below a)
    (hchild : ∀ c, n.children[i]? = some c →
      0 ≤ c.grouping.low ∧ c.grouping.low ≤ c.grouping.high + 1)
    {es es' : List Double} (hne : es ≠ []) (hes : n.flattenedEdges = .ok es)
    (hes' : n'.flattenedEdges = .ok es') : es.length < es'.length := by
  obtain ⟨rfl, c, size, bins, hc, hleaf, rfl⟩ := hfirst
  obtain ⟨c₀, c', hc₀, hc', rfl⟩ := appendAt_cons_eq_ok.mp h
  obtain rfl : c = c₀ := Option.some.inj (hc.symm.trans hc₀)
  -- The child has been rebased, and so it has more grouped bins.
  have hspan : c.span < c'.span := by
    obtain ⟨hsize, -⟩ := appendRange_eq_ok.mp hc'
    obtain ⟨hlow, hhigh⟩ := hchild c hc
    rw [span, span, (appendAt_grouping hc').2.2, if_pos rfl, Append.regrouped, isLeaf, hleaf]
    exact Grouping.span_lt_span_rebased hsize hlow hhigh
  have hmore := length_groupedBins_lt_set hc hspan
  obtain ⟨first, rest, hchildren⟩ : ∃ first rest, n.children = first :: rest :=
    List.exists_cons_of_ne_nil fun hnil => by simp [hnil] at hc
  obtain ⟨first', rest', hchildren'⟩ :
      ∃ first' rest', n.children.set i c' = first' :: rest' :=
    List.exists_cons_of_ne_nil fun hnil => by
      simp [hchildren] at hnil
  cases hbase : n.base with
  | none =>
    rw [flattenedEdges, hbase] at hes
    exact absurd (Except.ok.inj hes).symm hne
  | some base =>
    rw [eq_of_flattenedEdges hbase hchildren hes,
      eq_of_flattenedEdges (n := { n with children := n.children.set i c' }) hbase hchildren' hes']
    simpa [cuts] using hmore

/-- **What a node notices of its children being divided.** Let an addition be tried below a
node, at a child or deeper, and be accepted or refused. If it is refused, or if it is not
the first range of a child, then the node is as it was for flattening and validation. The
first range of a child, however, always makes the node imply more edges, unless the child is
counted backwards or starts before the underflow bin. -/
theorem tryAppends_below {t t' : Node β} {above : List Nat} {accepted : List (List Nat × Append)}
    (hn : t.get? above = some n)
    (h : t.tryAppends [(above ++ i :: below, a)] = .ok (accepted, t')) :
    ∃ n', t'.get? above = some n' ∧
      (accepted = [] ∨ ¬IsFirstRange n i below a → Alike n n') ∧
      (accepted ≠ [] → IsFirstRange n i below a →
        (∀ c, n.children[i]? = some c →
          0 ≤ c.grouping.low ∧ c.grouping.low ≤ c.grouping.high + 1) →
        ∀ es es', es ≠ [] → n.flattenedEdges = .ok es → n'.flattenedEdges = .ok es' →
          es.length < es'.length) := by
  rcases tryAppends_singleton h with ⟨happend, rfl⟩ | ⟨rfl, rfl⟩
  · obtain ⟨n', hget, hstep⟩ := get?_of_appendAt_append happend hn
    refine ⟨n', hget, fun hcond => ?_, fun _ hfirst hchild _ _ => ?_⟩
    · exact alike_of_outline (outline_of_appendAt hstep (hcond.resolve_left (List.cons_ne_nil _ _)))
    · exact length_lt_of_isFirstRange hstep hfirst hchild
  · exact ⟨n, hn, fun _ => alike_of_outline rfl, fun hne => absurd rfl hne⟩

end Below

/-- Ten bins in two halves. -/
abbrev halves : Node UnitAxis :=
  ⟨some tenBins, ⟨1, 0, 1, 10, 10, Grouping.one_le_one⟩,
    [⟨some tenBins, ⟨1, 0, 1, 5, 10, Grouping.one_le_one⟩, []⟩,
      ⟨some tenBins, ⟨1, 0, 6, 10, 10, Grouping.one_le_one⟩, []⟩]⟩

/-- The root does not notice that a part of its second half becomes a child of its own. -/
theorem tryAppends_below_part : ∃ t : Node UnitAxis,
    halves.get? [] = some halves ∧
    halves.tryAppends [([] ++ 1 :: [], .child 2 0 3 (some 4))] =
      .ok ([([1], .child 2 0 3 (some 4))], t) ∧ Alike halves t := by
  have hrun : halves.tryAppends [([] ++ 1 :: [], .child 2 0 3 (some 4))] =
      .ok ([([1], .child 2 0 3 (some 4))],
        ⟨some tenBins, ⟨1, 0, 1, 10, 10, by decide⟩,
          [⟨some tenBins, ⟨1, 0, 1, 5, 10, by decide⟩, []⟩,
            ⟨some tenBins, ⟨1, 0, 6, 10, 10, by decide⟩,
              [⟨some tenBins, ⟨2, 0, 3, 4, 5, by decide⟩, []⟩]⟩]⟩) := by rfl
  obtain ⟨t, hget, halike, -⟩ := tryAppends_below rfl hrun
  obtain rfl := Option.some.inj hget
  refine ⟨_, rfl, hrun, halike (Or.inr ?_)⟩
  rintro ⟨-, c, size, bins, -, -, h⟩
  cases h

/-- **A division that is noticed.** Two halves of ten bins are contiguous and imply eleven
edges. After a first range on the first half they imply twelve, and are not contiguous. -/
theorem tryAppends_below_first_range : ∃ (t : Node UnitAxis) (es es' : List Double),
    (root tenBins).tryAppends [([], .child 1 0 1 (some 5)), ([], .child 1 0 6 (some 10))] =
      .ok ([([], .child 1 0 1 (some 5)), ([], .child 1 0 6 (some 10))], halves) ∧
    halves.tryAppends [([0], .range 1 (some 2))] = .ok ([([0], .range 1 (some 2))], t) ∧
    halves.validateContiguity.outcome = .ok true ∧ t.validateContiguity.outcome = .ok false ∧
    halves.flattenedEdges = .ok es ∧ es.length = 11 ∧
    t.flattenedEdges = .ok es' ∧ es'.length = 12 :=
  ⟨⟨some tenBins, ⟨1, 0, 1, 10, 10, by decide⟩,
      [⟨some tenBins, ⟨1, 0, 1, 6, 10, by decide⟩,
        [⟨some tenBins, ⟨1, 0, 1, 2, 10, by decide⟩, []⟩]⟩,
        ⟨some tenBins, ⟨1, 0, 6, 10, 10, by decide⟩, []⟩]⟩,
    _, _, by rfl, by rfl, by rfl, by rfl, by rfl, by rfl, by rfl, by rfl⟩

end Node

end Binning
