import Binning.Axis.Unit
import Binning.Proofs.Attempts
import Binning.Proofs.Range

/-!
# Where ranges are placed

Ranges are placed one after the other, and each place follows from the base bins
that the ranges before it cover. This file gives the places in closed form, for
every leaf on which ranges are tried, with any group sizes, any numbers of bins and
any refused ranges in between.

Let the local range of the leaf start at `low`, and let `r` be the remainder of
`low` by the size of the first group. Placed by `Binning.Node.IsPlaced`,

* the first range starts in the group of its own size that holds `low`, and covers
  base bins from `low - size + 1` on;
* a later range starts after the `C` base bins covered before it, at `C + 1`; but
  the first range has left its remainder to the node, and a range of groups of more
  than one bin is shifted by it, to `C + 1 + r`.

The invariant is `Binning.Node.Ranged`. An accepted range preserves it
(`Binning.Node.Ranged.addRange`), hence all attempts do
(`Binning.Node.ranged_of_tryRanges`), and the places can be read off in
`Binning.Node.tryRanges_placement`.
-/

namespace Binning

open Outcome

/-- The last element of a list is either the one that is looked at or comes after
it. -/
theorem concat_eq_append_cons {α : Type} {xs before after : List α} {x c : α}
    (h : xs ++ [x] = before ++ c :: after) :
    (after = [] ∧ before = xs ∧ c = x) ∨
      ∃ after', after = after' ++ [x] ∧ xs = before ++ c :: after' := by
  rcases List.eq_nil_or_concat after with rfl | ⟨after', y, rfl⟩
  · obtain ⟨h1, h2⟩ := List.append_inj' h rfl
    exact Or.inl ⟨rfl, h1.symm, (List.cons.inj h2).1.symm⟩
  · rw [List.concat_eq_append, ← List.cons_append, ← List.append_assoc] at h
    obtain ⟨h1, h2⟩ := List.append_inj' h rfl
    obtain rfl : x = y := (List.cons.inj h2).1
    exact Or.inr ⟨after', List.concat_eq_append, h1⟩

namespace Node

variable {β : Type}

/-! ### A single place -/

/-- **A child is placed** after the children `before` it, in a node whose local range
started at `low`. -/
def IsPlaced (low : Int) (before : List (Node β)) (c : Node β) : Prop :=
  match before with
  | [] => c.grouping.skip = low % c.grouping.size ∧ c.grouping.low = low / c.grouping.size
  | first :: _ =>
    c.grouping.skip = covered before % c.grouping.size + low % first.grouping.size ∧
      c.grouping.low = covered before / c.grouping.size + 1

/-- The shift of a later child: what the first child has left over, unless the bins
of the child are grouped one by one. -/
def shift (low : Int) (first c : Node β) : Int :=
  if c.grouping.size = 1 then 0 else low % first.grouping.size

/-- The base bin at which the first child starts. -/
theorem IsPlaced.lower_first {low : Int} {c : Node β} (h : IsPlaced low [] c) :
    c.grouping.lower = low - c.grouping.size + 1 := by
  obtain ⟨hskip, hlow⟩ := h
  unfold Grouping.lower Grouping.firstBin
  rw [hskip, hlow]
  split
  · next hone =>
    rw [hone, Int.ediv_one]
    omega
  · have hdiv := Int.ediv_mul_add_emod low c.grouping.size
    rw [Int.sub_mul]
    omega

/-- The base bin at which a later child starts. -/
theorem IsPlaced.lower_later {low : Int} {first : Node β} {middle : List (Node β)} {c : Node β}
    (h : IsPlaced low (first :: middle) c) :
    c.grouping.lower = covered (first :: middle) + 1 + shift low first c := by
  obtain ⟨hskip, hlow⟩ := h
  unfold Grouping.lower Grouping.firstBin shift
  rw [hskip, hlow]
  split
  · next hone =>
    rw [hone, Int.ediv_one]
    omega
  · have hdiv := Int.ediv_mul_add_emod (covered (first :: middle)) c.grouping.size
    rw [Int.add_sub_cancel]
    omega

/-- The base bin at which the first child ends. -/
theorem IsPlaced.upper_first {low : Int} {c : Node β} (h : IsPlaced low [] c) :
    c.grouping.upper = low - c.grouping.size + covered [c] := by
  rw [Grouping.upper_eq, h.lower_first, covered_cons, covered_nil]
  omega

/-- The base bin at which a later child ends. -/
theorem IsPlaced.upper_later {low : Int} {first : Node β} {middle : List (Node β)} {c : Node β}
    (h : IsPlaced low (first :: middle) c) :
    c.grouping.upper = covered (first :: middle ++ [c]) + shift low first c := by
  rw [Grouping.upper_eq, h.lower_later, covered_append, covered_cons c, covered_nil]
  omega

/-! ### All places -/

/-- **The invariant of a node with ranges**, whose local range started at `low`:
every child is placed after those before it, and the first one has rebased the node.
The children are childless nodes over the same axis, and their ends are known. -/
structure Ranged (low : Int) (n : Node β) : Prop where
  placed : ∀ before c after, n.children = before ++ c :: after → IsPlaced low before c
  low_eq : n.children = [] → n.grouping.low = low
  rebased : ∀ first rest, n.children = first :: rest →
    n.grouping.skip = low % first.grouping.size ∧ n.grouping.low = low / first.grouping.size
  stop_eq : ∀ c ∈ n.children, c.grouping.stop = .ok c.grouping.upper
  leaf : ∀ c ∈ n.children, c.children = []

/-- A leaf has no places to speak of. -/
theorem ranged_of_leaf {n : Node β} (h : n.children = []) : Ranged n.grouping.low n where
  placed before c after heq := by simp [h] at heq
  low_eq _ := rfl
  rebased first rest heq := by simp [h] at heq
  stop_eq c hc := by simp [h] at hc
  leaf c hc := by simp [h] at hc

/-- The invariant after one more child, placed after the others, in a node that is
rebased if it is the first. -/
theorem Ranged.grown {low : Int} {n : Node β} (hn : Ranged low n) {parent g : Grouping}
    (hplaced : IsPlaced low n.children ⟨n.base, g, []⟩)
    (hfirst : n.children = [] → parent.skip = low % g.size ∧ parent.low = low / g.size)
    (hlater : n.children ≠ [] → parent = n.grouping) (hstop : g.stop = .ok g.upper) :
    Ranged low (n.grown parent g) where
  placed before c after heq := by
    rcases concat_eq_append_cons heq with ⟨-, rfl, rfl⟩ | ⟨after', -, heq'⟩
    · exact hplaced
    · exact hn.placed before c after' heq'
  low_eq h := by simp [Node.grown] at h
  rebased first rest heq := by
    cases hc : n.children with
    | nil =>
      rw [Node.grown, hc] at heq
      obtain ⟨rfl, -⟩ := List.cons.inj heq
      exact hfirst hc
    | cons first' rest' =>
      rw [Node.grown, hc] at heq
      obtain ⟨rfl, -⟩ := List.cons.inj heq
      rw [Node.grown, hlater (by simp [hc])]
      exact hn.rebased first' rest' hc
  stop_eq c hc := by
    rcases List.mem_append.mp hc with hc | hc
    · exact hn.stop_eq c hc
    · obtain rfl := List.mem_singleton.mp hc
      exact hstop
  leaf c hc := by
    rcases List.mem_append.mp hc with hc | hc
    · exact hn.leaf c hc
    · obtain rfl := List.mem_singleton.mp hc
      rfl

/-! ### Reading the places off -/

section Places

variable {low : Int} {m : Node β} (hm : Ranged low m)

include hm

/-- The base bins of the first child. -/
theorem Ranged.first {first : Node β} {rest : List (Node β)} (hc : m.children = first :: rest) :
    Gives first.grouping.start (low - first.grouping.size + 1) ∧
      first.grouping.stop = .ok (low - first.grouping.size + covered [first]) := by
  have hplaced := hm.placed [] first rest hc
  constructor
  · rw [← hplaced.lower_first]
    exact first.grouping.start_gives
  · rw [← hplaced.upper_first]
    exact hm.stop_eq first (by simp [hc])

/-- The base bins of a later child. -/
theorem Ranged.later {first c : Node β} {middle after : List (Node β)}
    (hc : m.children = first :: middle ++ c :: after) :
    Gives c.grouping.start (covered (first :: middle) + 1 + shift low first c) ∧
      c.grouping.stop = .ok (covered (first :: middle ++ [c]) + shift low first c) := by
  have hplaced := hm.placed (first :: middle) c after hc
  constructor
  · rw [← hplaced.lower_later]
    exact c.grouping.start_gives
  · rw [← hplaced.upper_later]
    exact hm.stop_eq c (by simp [hc])

/-- **From one child to the next**: the next child starts after the one before it, but
for the place of the first child and for the shifts of the others. -/
theorem Ranged.lower_next {before after : List (Node β)} {a b : Node β}
    (hc : m.children = before ++ a :: b :: after) :
    b.grouping.lower = a.grouping.upper + 1 +
      match before with
      | [] => a.grouping.size - low + shift low a b
      | first :: _ => shift low first b - shift low first a := by
  have ha := hm.placed before a (b :: after) hc
  have hb := hm.placed (before ++ [a]) b after (by simp [hc])
  cases before with
  | nil =>
    dsimp only
    rw [IsPlaced.lower_later hb, ha.upper_first]
    omega
  | cons first middle =>
    have hb' : IsPlaced low (first :: (middle ++ [a])) b := hb
    dsimp only
    rw [hb'.lower_later, ha.upper_later, List.cons_append]
    omega

end Places

/-- Nothing is left over by groups of one bin. -/
theorem shift_of_size_eq_one {low : Int} {first c : Node β} (h : first.grouping.size = 1) :
    shift low first c = 0 := by
  rw [shift, h, Int.emod_one, ite_self]

/-! ### Adding a range -/

/-- The group sizes of the children, in order. -/
def sizes (n : Node β) : List Int := n.children.map fun c => c.grouping.size

variable [BaseAxis β]

/-- **The next range has its place.** The first one is placed in the rebased node, and the
later ones after the bins that are covered. -/
theorem Ranged.isPlaced {low : Int} {n : Node β} (hn : Ranged low n) (base : β) {size : Int}
    (hsize : 1 ≤ size) (bins : Option Int) :
    IsPlaced low n.children ⟨n.base, Grouping.made (BaseAxis.binCount base) size
      (n.placed base size bins).skip (n.placed base size bins).low
      (some (n.placed base size bins).high) hsize, []⟩ := by
  -- Only the first range looks at the place of the node; the later ones look at its skip.
  cases hc : n.children with
  | nil => simp [IsPlaced, Grouping.made, Node.placed, isLeaf, hc, Grouping.rebased, hn.low_eq hc]
  | cons first rest =>
    simp [IsPlaced, Grouping.made, Node.placed, isLeaf, hc, (hn.rebased first rest hc).1]

/-- **An accepted range preserves the invariant.** -/
theorem Ranged.addRange {low : Int} {n m : Node β} {r : RangeSpec} (hn : Ranged low n)
    (h : (n.addRange r).outcome = .ok m) : Ranged low m ∧ m.sizes = n.sizes ++ [r.size] := by
  obtain ⟨hsize, base, p, g, -, rfl, rfl, hstop, -, -, rfl⟩ := exists_child_of_appendRange h
  refine ⟨hn.grown (hn.isPlaced base hsize r.bins) ?_ ?_ hstop,
    by simp [sizes, Node.grown, Grouping.made]⟩
  · intro hc
    simp [Grouping.made, Node.placed, isLeaf, hc, Grouping.rebased, hn.low_eq hc]
  · intro hc
    simp [Node.placed, isLeaf, hc]

/-- **Attempts preserve the invariant**, and the sizes of the children are those of the
accepted ranges. -/
theorem ranged_of_tryRanges {n m : Node β} {calls accepted : List RangeSpec}
    (hleaf : n.children = []) (h : n.tryRanges calls = .ok (accepted, m)) :
    Ranged n.grouping.low m ∧ m.sizes = accepted.map RangeSpec.size := by
  refine Run.attempts_induction
    (P := fun done m => Ranged n.grouping.low m ∧ m.sizes = done.map RangeSpec.size)
    (fun done s r s' hs hr => ?_) h [] ⟨ranged_of_leaf hleaf, by simp [sizes, hleaf]⟩
  obtain ⟨hranged, hsizes⟩ := hs.1.addRange hr
  exact ⟨hranged, by rw [hsizes, hs.2, List.map_append, List.map_singleton]⟩

/-- **The places of all ranges**, on a leaf and for any attempts. The children are the
accepted ranges. The first one starts in its group that holds the start of the leaf; a
later one starts after the bins covered before it, shifted by what the first has left
over. Every end is known, and every start unless it overflows. On a fresh root whose
first range groups nothing, each child starts at the base bin after the one before. -/
theorem tryRanges_placement {n m : Node β} {calls accepted : List RangeSpec}
    (hleaf : n.children = []) (h : n.tryRanges calls = .ok (accepted, m)) :
    m.sizes = accepted.map RangeSpec.size ∧
    (∀ first rest, m.children = first :: rest →
      Gives first.grouping.start (n.grouping.low - first.grouping.size + 1) ∧
      first.grouping.stop = .ok (n.grouping.low - first.grouping.size + covered [first])) ∧
    (∀ first middle c after, m.children = first :: middle ++ c :: after →
      Gives c.grouping.start (covered (first :: middle) + 1 + shift n.grouping.low first c) ∧
      c.grouping.stop =
        .ok (covered (first :: middle ++ [c]) + shift n.grouping.low first c)) ∧
    (∀ base first rest, ofBase base = .ok n → m.children = first :: rest →
      first.grouping.size = 1 → Gives first.grouping.start 1 ∧
      ∀ before a b after, m.children = before ++ a :: b :: after →
        ∃ stop, a.grouping.stop = .ok stop ∧ Gives b.grouping.start (stop + 1)) := by
  obtain ⟨hm, hsizes⟩ := ranged_of_tryRanges hleaf h
  refine ⟨hsizes, fun _ _ => hm.first, fun _ _ _ _ => hm.later, ?_⟩
  intro base first rest hroot hc hone
  have hlow : n.grouping.low = 1 := by
    rw [ofBase_eq] at hroot
    rw [← Except.ok.inj hroot]
    rfl
  rw [hlow] at hm
  constructor
  · have hstart := (hm.first hc).1
    rwa [hone] at hstart
  · intro before a b after hab
    refine ⟨_, hm.stop_eq a (by simp [hab]), ?_⟩
    -- Without a remainder nothing is shifted, and the first range starts at the first bin.
    have hnext : b.grouping.lower = a.grouping.upper + 1 := by
      rw [hm.lower_next hab]
      cases before with
      | nil =>
        obtain rfl : a = first := (List.cons.inj (hab.symm.trans hc)).1
        simp [hone, shift_of_size_eq_one hone]
      | cons first' middle =>
        obtain rfl : first' = first := (List.cons.inj (hab.symm.trans hc)).1
        simp [shift_of_size_eq_one hone]
    rw [← hnext]
    exact b.grouping.start_gives

/-- Three ranges on a leaf that starts at bin `3` of twelve, with a refused one among
them: the bins from `2` to `5` in twos, bins `5` and `6`, and bins `8` to `10` in threes. -/
theorem tryRanges_placement_unaligned : ∃ (g : Grouping) (first second third : Node UnitAxis),
    (⟨some ⟨12, Double.zero⟩, ⟨1, 0, 3, 12, 12, by decide⟩, []⟩ : Node UnitAxis).tryRanges
        [⟨2, some 2⟩, ⟨0, some 1⟩, ⟨1, some 2⟩, ⟨3, none⟩] =
      .ok ([⟨2, some 2⟩, ⟨1, some 2⟩, ⟨3, none⟩],
        ⟨some ⟨12, Double.zero⟩, g, [first, second, third]⟩) ∧
    first.grouping.start = .ok 2 ∧ first.grouping.stop = .ok 5 ∧
    second.grouping.start = .ok 5 ∧ second.grouping.stop = .ok 6 ∧
    third.grouping.start = .ok 8 ∧ third.grouping.stop = .ok 10 := by
  have hrun : (⟨some ⟨12, Double.zero⟩, ⟨1, 0, 3, 12, 12, by decide⟩, []⟩ : Node UnitAxis).tryRanges
        [⟨2, some 2⟩, ⟨0, some 1⟩, ⟨1, some 2⟩, ⟨3, none⟩] =
      .ok ([⟨2, some 2⟩, ⟨1, some 2⟩, ⟨3, none⟩],
        ⟨some ⟨12, Double.zero⟩, ⟨1, 1, 1, 12, 12, by decide⟩,
          [⟨some ⟨12, Double.zero⟩, ⟨2, 1, 1, 2, 5, by decide⟩, []⟩,
            ⟨some ⟨12, Double.zero⟩, ⟨1, 1, 5, 6, 11, by decide⟩, []⟩,
            ⟨some ⟨12, Double.zero⟩, ⟨3, 1, 3, 3, 3, by decide⟩, []⟩]⟩) := by rfl
  obtain ⟨-, hfirst, hlater, -⟩ := tryRanges_placement rfl hrun
  obtain ⟨h1, h2⟩ := hfirst _ _ rfl
  obtain ⟨h3, h4⟩ := hlater _ [] _ _ rfl
  obtain ⟨h5, h6⟩ := hlater _ [_] _ [] rfl
  -- The starts are reached, so they are the ones that are given.
  exact ⟨_, _, _, _, hrun, h1.ok_of_ok rfl, h2, h3.ok_of_ok rfl, h4, h5.ok_of_ok rfl, h6⟩

end Node

end Binning
