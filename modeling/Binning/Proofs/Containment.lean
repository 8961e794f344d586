import Binning.Proofs.Growth

/-!
# Containment

Every child in a tree should end within its parent (`Binning.Node.Contained`). An addition
checks this for the child that it adds. It is not checked again for a child that was added
before, and yet the end of such a child can move: its first range rebases it, and a local
range that is rebased need not end where it ended. The child *overreaches* if it then ends
beyond its parent (`Binning.Node.Overreaches`).

Nothing else can go wrong. If a contained tree grows, it stays contained unless the addition
overreaches (`Binning.Node.contained_of_appendAt`). And what went wrong stays wrong: a child
that overreaches has children from then on, so neither its own end nor that of its parent
moves again. This is why the invariant of a tree that is not contained speaks of children
that are divided themselves (`Binning.Node.DividedContained`).

For trees grown from a childless root by any additions, at any depth and in any order, this
gives `Binning.Node.contained_tryAppends_iff`: the tree is contained exactly if no accepted
addition was overreaching at its time (`Binning.Node.Restrained`).
-/

namespace Binning

open Outcome

namespace Node

variable {β : Type}

/-! ### All nodes of a tree -/

/-- Every node of a tree has a property. -/
def Everywhere (Q : Node β → Prop) (t : Node β) : Prop := ∀ path n, t.get? path = some n → Q n

/-- The nodes of a tree are its root and the nodes of its children. -/
theorem everywhere_iff {Q : Node β → Prop} {t : Node β} :
    t.Everywhere Q ↔ Q t ∧ ∀ c ∈ t.children, c.Everywhere Q := by
  constructor
  · intro h
    refine ⟨h [] t rfl, fun c hc path n hn => ?_⟩
    obtain ⟨i, hi⟩ := List.mem_iff_getElem?.mp hc
    exact h (i :: path) n (by rw [get?_cons, hi]; exact hn)
  · rintro ⟨hroot, hbelow⟩ path n hn
    cases path with
    | nil =>
      obtain rfl : t = n := Option.some.inj hn
      exact hroot
    | cons i path =>
      obtain ⟨c, hc, hget⟩ := Option.bind_eq_some_iff.mp hn
      exact hbelow c (List.mem_of_getElem? hc) path n hget

/-- An addition keeps the axis that all nodes of a tree share. -/
theorem everywhere_base_of_appendAt [BaseAxis β] {base : Option β} {t t' : Node β} {path : List Nat}
    {a : Append} (h : (t.appendAt path a).outcome = .ok t')
    (ht : t.Everywhere fun n => n.base = base) : t'.Everywhere fun n => n.base = base := by
  induction path generalizing t t' with
  | nil =>
    obtain ⟨g, rfl, -⟩ := exists_grown_of_append h
    obtain ⟨hroot, hbelow⟩ := everywhere_iff.mp ht
    refine everywhere_iff.mpr ⟨hroot, fun c hc => ?_⟩
    rcases List.mem_append.mp hc with hc | hc
    · exact hbelow c hc
    · obtain rfl := List.mem_singleton.mp hc
      exact everywhere_iff.mpr ⟨hroot, by simp⟩
  | cons i path ih =>
    obtain ⟨c, c', hc, hcall, rfl⟩ := appendAt_cons_eq_ok.mp h
    obtain ⟨hroot, hbelow⟩ := everywhere_iff.mp ht
    refine everywhere_iff.mpr ⟨hroot, fun d hd => ?_⟩
    rcases List.mem_or_eq_of_mem_set hd with hd | rfl
    · exact hbelow d hd
    · exact ih hcall (hbelow c (List.mem_of_getElem? hc))

/-! ### Ends of children -/

/-- A child ends within its parent. -/
def Within (child parent : Node β) : Prop :=
  ∃ stop limit, child.grouping.stop = .ok stop ∧ parent.grouping.stop = .ok limit ∧ stop ≤ limit

/-- **Every child in a tree ends within its parent.** -/
def Contained (t : Node β) : Prop := t.Everywhere fun n => ∀ c ∈ n.children, Within c n

/-- Every child in a tree that has children itself ends within its parent. -/
def DividedContained (t : Node β) : Prop :=
  t.Everywhere fun n =>
    ∀ c ∈ n.children, c.children ≠ [] → c.grouping.upper ≤ n.grouping.upper

theorem Within.upper_le {c n : Node β} (h : Within c n) :
    c.grouping.upper ≤ n.grouping.upper := by
  obtain ⟨stop, limit, hstop, hlimit, hle⟩ := h
  rwa [c.grouping.stop_gives.eq_of_ok hstop, n.grouping.stop_gives.eq_of_ok hlimit] at hle

theorem Contained.divided {t : Node β} (h : t.Contained) : t.DividedContained :=
  fun path n hn c hc _ => (h path n hn c hc).upper_le

theorem contained_iff {t : Node β} : t.Contained ↔ ∀ c ∈ t.children, Within c t ∧ c.Contained :=
  everywhere_iff.trans forall₂_and.symm

theorem dividedContained_iff {t : Node β} :
    t.DividedContained ↔ ∀ c ∈ t.children,
      (c.children ≠ [] → c.grouping.upper ≤ t.grouping.upper) ∧ c.DividedContained :=
  everywhere_iff.trans forall₂_and.symm

/-- A tree without children is contained. -/
theorem contained_of_leaf {t : Node β} (h : t.children = []) : t.Contained := by
  rw [contained_iff, h]
  simp

/-! ### Overreaching -/

/-- **The first range of a child moves its end beyond its parent.** -/
def Oversteps (parent child : Node β) (a : Append) : Prop :=
  ∃ size bins, a = .range size bins ∧ child.children = [] ∧
    parent.grouping.upper < (child.grouping.rebased size).upper

/-- **An addition overreaches**: it is the first range of a child, and moves the end of this
child beyond its parent. -/
def Overreaches (t : Node β) (call : List Nat × Append) : Prop :=
  ∃ above i parent child, call.1 = above ++ [i] ∧ t.get? above = some parent ∧
    parent.children[i]? = some child ∧ Oversteps parent child call.2

/-- An addition below a child overreaches at this child, or further down. -/
theorem overreaches_cons {t c : Node β} {i : Nat} {path : List Nat} {a : Append}
    (hc : t.children[i]? = some c) (h : (path = [] ∧ Oversteps t c a) ∨ c.Overreaches (path, a)) :
    t.Overreaches (i :: path, a) := by
  rcases h with ⟨rfl, hover⟩ | ⟨above, j, parent, child, rfl, hget, hchild, hover⟩
  · exact ⟨[], i, t, c, rfl, rfl, hc, hover⟩
  · exact ⟨i :: above, j, parent, child, rfl, by rw [get?_cons, hc]; exact hget, hchild, hover⟩

/-- An addition to the root does not overreach. -/
theorem not_overreaches_nil {t : Node β} {a : Append} : ¬t.Overreaches ([], a) := by
  rintro ⟨above, i, parent, child, hpath, -⟩
  simp at hpath

/-- An addition that overreaches moves the end of the child that it is made to. -/
theorem oversteps_of_overreaches {t parent child : Node β} (above : List Nat) {i : Nat}
    {a : Append} (h : t.Overreaches (above ++ [i], a)) (hparent : t.get? above = some parent)
    (hchild : parent.children[i]? = some child) : Oversteps parent child a := by
  obtain ⟨above', i', parent', child', hpath, hparent', hchild', hover⟩ := h
  obtain ⟨rfl, hi⟩ := List.append_inj' hpath rfl
  obtain rfl : i = i' := (List.cons.inj hi).1
  obtain rfl : parent = parent' := Option.some.inj (hparent.symm.trans hparent')
  obtain rfl : child = child' := Option.some.inj (hchild.symm.trans hchild')
  exact hover

section Append

variable [BaseAxis β] {t t' : Node β} {path : List Nat} {a : Append}

/-- **The end of a child after an addition to it**, or below it: still within the parent,
unless the addition is to the child itself and moves the end beyond. -/
theorem Within.of_appendAt {n c c' : Node β} (hc : Within c n)
    (h : (c.appendAt path a).outcome = .ok c') (hover : ¬(path = [] ∧ Oversteps n c a)) :
    Within c' n := by
  obtain ⟨stop, limit, hstop, hlimit, hle⟩ := hc
  cases path with
  | cons i path =>
    have hsame : c'.grouping = c.grouping := (appendAt_grouping h).2.2
    exact ⟨stop, limit, hsame ▸ hstop, hlimit, hle⟩
  | nil =>
    obtain ⟨g, rfl, -, hup, -⟩ := exists_grown_of_append h
    refine ⟨_, limit, hup, hlimit, ?_⟩
    rw [n.grouping.stop_gives.eq_of_ok hlimit] at hle ⊢
    rw [c.grouping.stop_gives.eq_of_ok hstop] at hle
    cases a with
    | child size skip low high => exact hle
    | range size bins =>
      by_cases hleaf : c.children = []
      · -- The first range: this is where the end can move.
        rw [Append.regrouped, isLeaf, hleaf]
        exact not_lt.mp fun hlt => hover ⟨rfl, size, bins, rfl, hleaf, hlt⟩
      · rwa [regrouped_of_ne_nil hleaf]

/-- **A contained tree stays contained** unless an addition overreaches. The induction is on
the path down to the node that grows. -/
theorem contained_of_appendAt (ht : t.Contained) (h : (t.appendAt path a).outcome = .ok t')
    (hover : ¬t.Overreaches (path, a)) : t'.Contained := by
  induction path generalizing t t' with
  | nil =>
    obtain ⟨g, rfl, hstop, hlimit, hle⟩ := exists_grown_of_append h
    rw [contained_iff]
    intro c hc
    rcases List.mem_append.mp hc with hc | hc
    · -- Other children of the node show that it is not rebased.
      have hsame := regrouped_of_ne_nil (List.ne_nil_of_mem hc) a
      obtain ⟨⟨stop, limit, hcstop, hclimit, hcle⟩, hbelow⟩ := contained_iff.mp ht c hc
      exact ⟨⟨stop, limit, hcstop, hsame.symm ▸ hclimit, hcle⟩, hbelow⟩
    · obtain rfl := List.mem_singleton.mp hc
      exact ⟨⟨_, _, hstop, hlimit, hle⟩, contained_of_leaf rfl⟩
  | cons i path ih =>
    obtain ⟨c, c', hc, hc', rfl⟩ := appendAt_cons_eq_ok.mp h
    have hchildren := contained_iff.mp ht
    obtain ⟨hwithin, hbelow⟩ := hchildren c (List.mem_of_getElem? hc)
    rw [contained_iff]
    intro d hd
    rcases List.mem_or_eq_of_mem_set hd with hd | rfl
    · exact hchildren d hd
    · exact ⟨hwithin.of_appendAt hc' fun ho => hover (overreaches_cons hc (Or.inl ho)),
        ih hbelow hc' fun ho => hover (overreaches_cons hc (Or.inr ho))⟩

/-- **An overreaching addition leaves a divided child beyond its parent.** -/
theorem not_dividedContained_of_overreaches (h : (t.appendAt path a).outcome = .ok t')
    (hover : t.Overreaches (path, a)) : ¬t'.DividedContained := by
  obtain ⟨above, i, parent, child, rfl, hparent, hchild, size, bins, rfl, hleaf, hlt⟩ := hover
  obtain ⟨parent', hget, hstep⟩ := get?_of_appendAt_append h hparent
  obtain ⟨c, c', hc, hc', rfl⟩ := appendAt_cons_eq_ok.mp hstep
  obtain rfl : child = c := Option.some.inj (hchild.symm.trans hc)
  obtain ⟨-, hne, hgroup⟩ := appendAt_grouping hc'
  intro hdivided
  have hi := (List.getElem?_eq_some_iff.mp hc).1
  have hle := hdivided above _ hget c' (List.mem_set hi c') hne
  -- The child has been rebased, and its parent has not changed.
  rw [hgroup, if_pos rfl, Append.regrouped, isLeaf, hleaf] at hle
  exact absurd hlt (not_lt.mpr hle)

/-- **What went wrong stays wrong**: nodes with children keep their groupings, so a divided
child that ends beyond its parent stays there. -/
theorem dividedContained_of_appendAt (h : (t.appendAt path a).outcome = .ok t')
    (ht : t'.DividedContained) : t.DividedContained := by
  induction path generalizing t t' with
  | nil =>
    obtain ⟨g, rfl, -⟩ := exists_grown_of_append h
    rw [dividedContained_iff] at ht ⊢
    intro c hc
    have hsame := regrouped_of_ne_nil (List.ne_nil_of_mem hc) a
    obtain ⟨hle, hbelow⟩ := ht c (List.mem_append_left _ hc)
    exact ⟨fun hne => hsame ▸ hle hne, hbelow⟩
  | cons i path ih =>
    obtain ⟨c, c', hc, hc', rfl⟩ := appendAt_cons_eq_ok.mp h
    rw [dividedContained_iff] at ht ⊢
    intro d hd
    obtain ⟨j, hj⟩ := List.mem_iff_getElem?.mp hd
    by_cases hij : i = j
    · obtain rfl : c = d := Option.some.inj (hc.symm.trans (hij ▸ hj))
      have hi := (List.getElem?_eq_some_iff.mp hc).1
      obtain ⟨hle, hbelow⟩ := ht c' (List.mem_set hi c')
      refine ⟨fun hne => ?_, ih hc' hbelow⟩
      rw [← appendAt_grouping_of_ne_nil hc' hne]
      exact hle (appendAt_grouping hc').2.1
    · exact ht d (List.mem_of_getElem? ((List.getElem?_set_ne hij).trans hj))

/-! ### Whole runs -/

/-- **No addition of a run overreaches**, each one taken when it is made. -/
def Restrained : Node β → List (List Nat × Append) → Prop
  | _, [] => True
  | t, call :: calls => ¬t.Overreaches call ∧
    ∀ t', (t.appendAt call.1 call.2).outcome = .ok t' → Restrained t' calls

/-- In whole runs, too, what went wrong stays wrong. -/
theorem dividedContained_of_tryAppends {calls accepted : List (List Nat × Append)}
    (h : t.tryAppends calls = .ok (accepted, t')) (ht : t'.DividedContained) :
    t.DividedContained := by
  by_contra hnot
  refine Run.attempts_induction (P := fun _ s => ¬s.DividedContained) ?_ h [] hnot ht
  intro _ s call s' hs hcall hs'
  exact hs (dividedContained_of_appendAt hcall hs')

/-- A contained tree grows into a contained one exactly if no addition overreaches. -/
theorem Contained.tryAppends_iff {calls accepted : List (List Nat × Append)} (ht : t.Contained)
    (h : t.tryAppends calls = .ok (accepted, t')) : t'.Contained ↔ t.Restrained accepted := by
  induction calls generalizing t accepted with
  | nil =>
    obtain ⟨rfl, rfl⟩ := Prod.mk.inj (Except.ok.inj h)
    simp [ht, Restrained]
  | cons call calls ih =>
    rcases Run.attempts_cons_eq_ok.mp h with ⟨s, rest, hcall, hrest, rfl⟩ | ⟨_, -, hrest⟩
    · have hrestrained : t.Restrained (call :: rest) ↔ ¬t.Overreaches call ∧ s.Restrained rest := by
        refine and_congr_right fun _ => ⟨fun hall => hall s hcall, ?_⟩
        intro hs s' hs'
        obtain rfl := Except.ok.inj (hcall.symm.trans hs')
        exact hs
      rw [hrestrained]
      by_cases hover : t.Overreaches call
      · refine iff_of_false (fun hcontained => ?_) (by simp [hover])
        exact not_dividedContained_of_overreaches hcall hover
          (dividedContained_of_tryAppends hrest hcontained.divided)
      · rw [ih (contained_of_appendAt ht hcall hover) hrest, and_iff_right hover]
    -- A refused addition leaves the tree as it was.
    · exact ih ht hrest

/-- **Containment over whole runs.** From a childless root, for any additions tried at any
nodes of the tree and in any order: every child ends within its parent exactly if no
accepted addition was the first range of a child whose end it moved beyond its parent. -/
theorem contained_tryAppends_iff {calls accepted : List (List Nat × Append)}
    (hleaf : t.children = []) (h : t.tryAppends calls = .ok (accepted, t')) :
    t'.Contained ↔ t.Restrained accepted :=
  (contained_of_leaf hleaf).tryAppends_iff h

end Append

/-- A child over all of ten bins keeps its end when it is divided into groups of two, and so
the tree is contained. -/
theorem contained_tryAppends_pairs : ∃ t : Node UnitAxis,
    (root tenBins).children = [] ∧
    (root tenBins).tryAppends
        [([], .child 1 0 1 (some 10)), ([], .child 1 0 8 (some 12)), ([0], .range 2 (some 3))] =
      .ok ([([], .child 1 0 1 (some 10)), ([0], .range 2 (some 3))], t) ∧ t.Contained := by
  have hchild : ((root tenBins).appendAt [] (.child 1 0 1 (some 10))).outcome =
      .ok ⟨some tenBins, ⟨1, 0, 1, 10, 10, by decide⟩,
        [⟨some tenBins, ⟨1, 0, 1, 10, 10, by decide⟩, []⟩]⟩ := by rfl
  have hrun : (root tenBins).tryAppends
        [([], .child 1 0 1 (some 10)), ([], .child 1 0 8 (some 12)), ([0], .range 2 (some 3))] =
      .ok ([([], .child 1 0 1 (some 10)), ([0], .range 2 (some 3))],
        ⟨some tenBins, ⟨1, 0, 1, 10, 10, by decide⟩,
          [⟨some tenBins, ⟨1, 1, 0, 10, 10, by decide⟩,
            [⟨some tenBins, ⟨2, 1, 0, 3, 4, by decide⟩, []⟩]⟩]⟩) := by rfl
  refine ⟨_, rfl, hrun, (contained_tryAppends_iff rfl hrun).mpr ⟨?_, fun s hs => ⟨?_, ?_⟩⟩⟩
  · exact fun hover => not_overreaches_nil hover
  · obtain rfl := Except.ok.inj (hchild.symm.trans hs)
    intro hover
    obtain ⟨size, bins, heq, -, hlt⟩ := oversteps_of_overreaches [] hover rfl rfl
    obtain ⟨rfl, rfl⟩ := Append.range.inj heq
    exact absurd hlt (by decide)
  · exact fun _ _ => trivial

/-- **A child that outgrows its parent.** A child over all of ten bins ends with its parent.
After its first range, of two single bins, it ends one bin beyond. -/
theorem contained_tryAppends_single_bins : ∃ t c : Node UnitAxis,
    ofBase tenBins = .ok (root tenBins) ∧
    (root tenBins).tryAppends
        [([], .child 1 0 1 (some 10)), ([0], .range 1 (some 2))] =
      .ok ([([], .child 1 0 1 (some 10)), ([0], .range 1 (some 2))], t) ∧
    t.children = [c] ∧ c.grouping.stop = .ok 11 ∧ t.grouping.stop = .ok 10 ∧ ¬t.Contained := by
  refine ⟨⟨some tenBins, ⟨1, 0, 1, 10, 10, by decide⟩,
    [⟨some tenBins, ⟨1, 0, 1, 11, 10, by decide⟩,
      [⟨some tenBins, ⟨1, 0, 1, 2, 10, by decide⟩, []⟩]⟩]⟩,
    _, ofBase_eq _, by rfl, rfl, by rfl, by rfl, fun hcontained => ?_⟩
  have hle := (contained_iff.mp hcontained _ List.mem_cons_self).1.upper_le
  exact absurd hle (by decide)

end Node

end Binning
