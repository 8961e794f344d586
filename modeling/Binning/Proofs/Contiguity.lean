import Binning.Node.Contiguity
import Binning.Proofs.Placement
import Mathlib.Data.List.Chain

/-!
# Which ranges pass the validation

Validation compares the start of each child, shifted by the `low` of its parent, with
the base bin after the child before it. Over all integers this makes the children a
chain (`Binning.Node.Adjoins`), and validation decides whether they are one
(`Binning.Node.validateContiguity_gives`).

For ranges on a fresh root the places are known from `Binning.Proofs.Placement`, and
nothing but the group sizes enters: how many bins a range was asked for moves its own
end and the start of the next range alike. What is left is a short list of sizes
(`Binning.Node.ValidSizes`):

* if the first range groups nothing, everything passes, since nothing is shifted
  (`Binning.Node.adjoins_of_unit`);
* otherwise the first range reaches back into the underflow bin, and the root starts
  at `0`. The second child then passes only after groups of two and without groups of
  its own (`Binning.Node.adjoins_second_iff`), and from there on each child must be
  shifted and the one before it must not be (`Binning.Node.adjoins_later_iff`), so that
  there can be one more child and no fourth.

The result is `Binning.Node.validateContiguity_tryRanges`.
-/

namespace Binning

open Outcome

namespace Node

variable {β : Type}

/-! ### What validation sees -/

/-- **A child adjoins the one before it**, as the validation of a parent that starts at
`low` has it. -/
def Adjoins (low : Int) (a b : Node β) : Prop :=
  b.grouping.lower + low - 1 = a.grouping.upper + 1

instance (low : Int) : DecidableRel (Adjoins (β := β) low) :=
  fun _ _ => inferInstanceAs (Decidable (_ = _))

theorem next_gives (n : Node β) : Gives n.next (n.grouping.upper + 1) :=
  n.grouping.stop_gives.bind (Coordinate.gives_add _ _)

theorem shiftedStart_gives (n : Node β) (low : Int) :
    Gives (n.shiftedStart low) (n.grouping.lower + low - 1) :=
  n.grouping.start_gives.bind ((Coordinate.gives_add _ _).bind (Coordinate.gives_sub _ _))

theorem groupingText_gives (g : Grouping) : ∃ text, Gives (groupingText g) text :=
  ⟨_, g.start_gives.bind (g.stop_gives.bind (gives_pure _))⟩

section Validation

variable [BaseAxis β]

/-- A node without children can be described, unless its base bins overflow. -/
theorem describe_gives {n : Node β} (hleaf : n.children = []) :
    ∃ text, Gives (n.describe DescribeOptions.full.withoutRanges) text := by
  obtain ⟨base, g, children⟩ := n
  obtain rfl : children = [] := hleaf
  cases base with
  | none => exact ⟨_, .inl rfl⟩
  | some base =>
    obtain ⟨text, htext⟩ := groupingText_gives g
    have hlines : Gives (lines DescribeOptions.full.withoutRanges 0 ⟨some base, g, []⟩)
        [⟨0, baseText base⟩, ⟨0, text⟩] := by
      rw [lines]
      exact (gives_ok ()).bind (htext.bind (gives_ok _))
    exact ⟨_, hlines.bind (gives_pure _)⟩

/-- **A child that is followed** starts where it should, and the others go on from its end. -/
theorem follow_cons_eq_true {low expected : Int} {index : Nat} {c : Node β}
    {rest : List (Node β)} :
    (follow low index expected (c :: rest)).outcome = .ok true ↔
      c.shiftedStart low = .ok expected ∧
        ∃ next, c.next = .ok next ∧ (follow low (index + 1) next rest).outcome = .ok true := by
  rw [follow, Run.outcome_bind_eq_ok]
  constructor
  · rintro ⟨start, hstart, hrest⟩
    split at hrest
    · next heq => exact ⟨heq ▸ hstart, Run.outcome_bind_eq_ok.mp hrest⟩
    · -- A fault is described, and then the answer is no.
      obtain ⟨_, -, hfault⟩ := Run.outcome_bind_eq_ok.mp hrest
      obtain ⟨_, -, hfalse⟩ := Run.outcome_bind_eq_ok.mp hfault
      cases hfalse
  · rintro ⟨hstart, hrest⟩
    refine ⟨expected, hstart, ?_⟩
    rw [if_pos rfl]
    exact Run.outcome_bind_eq_ok.mpr hrest

/-- Children after `a` are followed exactly as long as each adjoins the one before. -/
theorem follow_gives (low : Int) (index : Nat) (a : Node β) {rest : List (Node β)}
    (hleaf : ∀ c ∈ rest, c.children = []) :
    Gives (follow low index (a.grouping.upper + 1) rest).outcome
      (decide ((a :: rest).IsChain (Adjoins low))) := by
  induction rest generalizing index a with
  | nil =>
    simp only [follow, List.isChain_singleton, decide_true]
    exact gives_ok true
  | cons b rest ih =>
    refine Run.gives_bind (b.shiftedStart_gives low) ?_
    split
    · next heq =>
      have hab : Adjoins low a b := heq
      refine Run.gives_bind b.next_gives ?_
      simp only [List.isChain_cons_cons, hab, true_and]
      exact ih (index + 1) b fun c hc => hleaf c (List.mem_cons_of_mem b hc)
    · next hne =>
      have hab : ¬Adjoins low a b := hne
      -- The fault is described before it is reported; the child has no children.
      obtain ⟨text, htext⟩ := describe_gives (hleaf b List.mem_cons_self)
      simp only [List.isChain_cons_cons, hab, false_and, decide_false]
      exact Run.gives_bind htext (gives_ok false)

/-- **Validation decides whether the children are a chain**, for childless children. -/
theorem validateContiguity_gives {n : Node β} (hleaf : ∀ c ∈ n.children, c.children = []) :
    Gives n.validateContiguity.outcome
      (decide (n.children ≠ [] ∧ n.children.IsChain (Adjoins n.grouping.low))) := by
  rw [validateContiguity]
  cases hc : n.children with
  | nil => exact gives_ok false
  | cons first rest =>
    simp only [ne_eq, reduceCtorEq, not_false_eq_true, true_and]
    refine Run.gives_bind first.next_gives ?_
    exact follow_gives n.grouping.low 1 first fun c h => hleaf c (by simp [hc, h])

end Validation

/-! ### Ranges on a fresh root -/

section Sizes

variable {m : Node β} (hm : Ranged 1 m)

include hm

/-- After a first range in single bins the root starts at `1`. -/
theorem low_eq_one {first : Node β} {rest : List (Node β)} (hfirst : m.children = first :: rest)
    (hone : first.grouping.size = 1) : m.grouping.low = 1 := by
  rw [(hm.rebased first rest hfirst).2, hone, Int.ediv_one]

/-- If the first range groups nothing, each child adjoins the one before it. -/
theorem adjoins_of_unit {first : Node β} {rest : List (Node β)}
    (hfirst : m.children = first :: rest) (hone : first.grouping.size = 1)
    {before after : List (Node β)} {a b : Node β} (hc : m.children = before ++ a :: b :: after) :
    Adjoins m.grouping.low a b := by
  have hnext := hm.lower_next hc
  rw [Adjoins, low_eq_one hm hfirst hone, hnext]
  cases before with
  | nil =>
    obtain rfl : a = first := (List.cons.inj (hc.symm.trans hfirst)).1
    simp only [shift_of_size_eq_one hone, hone]
    omega
  | cons first' middle =>
    obtain rfl : first' = first := (List.cons.inj (hc.symm.trans hfirst)).1
    simp only [shift_of_size_eq_one hone]
    omega

/-- If the first range groups nothing, the children are a chain. -/
theorem isChain_of_unit {first : Node β} {rest : List (Node β)}
    (hfirst : m.children = first :: rest) (hone : first.grouping.size = 1) :
    m.children.IsChain (Adjoins m.grouping.low) := by
  rw [List.isChain_iff_forall_rel_of_append_cons_cons]
  intro a b before after hab
  exact adjoins_of_unit hm hfirst hone hab

/-- After a first range with groups the root starts at `0`. -/
theorem low_eq_zero {first : Node β} {rest : List (Node β)} (hfirst : m.children = first :: rest)
    (htwo : 2 ≤ first.grouping.size) : m.grouping.low = 0 := by
  rw [(hm.rebased first rest hfirst).2]
  exact Int.ediv_eq_zero_of_lt (by omega) (by omega)

omit hm in
/-- After a first range with groups there is one bin left over, and it shifts every child
that has groups. -/
theorem shift_of_two_le {first c : Node β} (htwo : 2 ≤ first.grouping.size) :
    shift 1 first c = if c.grouping.size = 1 then 0 else 1 := by
  rw [shift, Int.emod_eq_of_lt (by omega) (by omega)]

/-- After a first range with groups, the second child adjoins it only if the groups are
of two bins and the second child has none. -/
theorem adjoins_second_iff {first second : Node β} {rest : List (Node β)}
    (hc : m.children = first :: second :: rest) (htwo : 2 ≤ first.grouping.size) :
    Adjoins m.grouping.low first second ↔ first.grouping.size = 2 ∧ second.grouping.size = 1 := by
  have hsplit : m.children = [] ++ first :: second :: rest := hc
  have hnext := hm.lower_next hsplit
  rw [Adjoins, low_eq_zero hm hc htwo, hnext]
  simp only [shift_of_two_le htwo]
  split <;> omega

/-- After a first range with groups, a later child adjoins the one before it only if it has
groups and the other has none. -/
theorem adjoins_later_iff {first a b : Node β} {middle after : List (Node β)}
    (hc : m.children = first :: middle ++ a :: b :: after) (htwo : 2 ≤ first.grouping.size) :
    Adjoins m.grouping.low a b ↔ a.grouping.size = 1 ∧ 2 ≤ b.grouping.size := by
  have hnext := hm.lower_next hc
  have ha := a.grouping.size_pos
  have hb := b.grouping.size_pos
  rw [Adjoins, low_eq_zero hm hc htwo, hnext]
  simp only [shift_of_two_le htwo]
  split <;> split <;> omega

end Sizes

/-- **The group sizes that pass the validation** on a fresh root. -/
def ValidSizes (sizes : List Int) : Prop :=
  sizes ≠ [] ∧ (sizes.head? = some 1 ∨ sizes.length = 1 ∨
    (sizes.take 2 = [2, 1] ∧ (sizes.length = 2 ∨ (sizes.length = 3 ∧ 2 ≤ sizes.getD 2 0))))

instance : DecidablePred ValidSizes := fun _ => inferInstanceAs (Decidable (_ ∧ _))

section Lists

variable {g : Int} (hg : g ≠ 1)

include hg

theorem validSizes_pair (h : Int) : ValidSizes [g, h] ↔ g = 2 ∧ h = 1 := by
  simp [ValidSizes, hg]

theorem validSizes_triple (h k : Int) : ValidSizes [g, h, k] ↔ (g = 2 ∧ h = 1) ∧ 2 ≤ k := by
  simp [ValidSizes, hg]

/-- There is no fourth range unless the first one groups nothing. -/
theorem not_validSizes_of_four (h k l : Int) (sizes : List Int) :
    ¬ValidSizes (g :: h :: k :: l :: sizes) := by
  simp [ValidSizes, hg]

end Lists

/-- **The children of a fresh root are a chain exactly for valid sizes.** -/
theorem isChain_iff_validSizes {m : Node β} (hm : Ranged 1 m) :
    (m.children ≠ [] ∧ m.children.IsChain (Adjoins m.grouping.low)) ↔ ValidSizes m.sizes := by
  rw [sizes]
  rcases hc : m.children with - | ⟨first, - | ⟨second, rest⟩⟩
  · simp [ValidSizes]
  · simp [ValidSizes]
  -- At least two children: the chain of the first two decides what else is possible.
  have hcons : first :: second :: rest ≠ [] := List.cons_ne_nil _ _
  rw [and_iff_right hcons]
  have hpos := first.grouping.size_pos
  rcases eq_or_ne first.grouping.size 1 with hone | hne
  · have hchain : (first :: second :: rest).IsChain (Adjoins m.grouping.low) :=
      hc ▸ isChain_of_unit hm hc hone
    simp [ValidSizes, hone, hchain]
  · have htwo : 2 ≤ first.grouping.size := by omega
    have hsecond := adjoins_second_iff hm hc htwo
    -- The chain is broken by the fourth child at the latest.
    rcases rest with - | ⟨third, - | ⟨fourth, rest⟩⟩
    · rw [List.isChain_pair, hsecond]
      exact (validSizes_pair hne _).symm
    · have hc3 : m.children = first :: [] ++ second :: third :: [] := hc
      have hthird := adjoins_later_iff hm hc3 htwo
      rw [List.isChain_cons_cons, List.isChain_pair, hsecond, hthird]
      refine Iff.trans ?_ (validSizes_triple hne _ _).symm
      constructor
      · rintro ⟨hfirst, -, hthree⟩
        exact ⟨hfirst, hthree⟩
      · rintro ⟨hfirst, hthree⟩
        exact ⟨hfirst, hfirst.2, hthree⟩
    · have hc3 : m.children = first :: [] ++ second :: third :: fourth :: rest := hc
      have hc4 : m.children = first :: [second] ++ third :: fourth :: rest := hc
      have hthird := adjoins_later_iff hm hc3 htwo
      have hfourth := adjoins_later_iff hm hc4 htwo
      refine iff_of_false ?_ (not_validSizes_of_four hne _ _ _ _)
      intro hchain
      rw [List.isChain_cons_cons, List.isChain_cons_cons, List.isChain_cons_cons, hthird,
        hfourth] at hchain
      obtain ⟨-, ⟨-, hgroups⟩, ⟨hsingle, -⟩, -⟩ := hchain
      omega

variable [BaseAxis β]

/-- **Which ranges pass the validation**: for any attempts on the root over any base axis,
validation tells whether the group sizes of the accepted ranges are valid, unless a base
bin overflows. -/
theorem validateContiguity_tryRanges {base : β} {n m : Node β} {calls accepted : List RangeSpec}
    (hroot : ofBase base = .ok n) (h : n.tryRanges calls = .ok (accepted, m)) :
    Gives m.validateContiguity.outcome (decide (ValidSizes (accepted.map RangeSpec.size))) := by
  rw [ofBase_eq] at hroot
  obtain rfl : root base = n := Except.ok.inj hroot
  obtain ⟨hm, hsizes⟩ := ranged_of_tryRanges rfl h
  have hgives := validateContiguity_gives hm.leaf
  have hvalid := isChain_iff_validSizes (m := m) hm
  rw [hsizes] at hvalid
  rwa [decide_eq_decide.mpr hvalid] at hgives

/-- Groups of two, single bins and groups of three on nine bins, with a refused range among
them, are a longest list of ranges that passes although the first one has groups. -/
theorem validateContiguity_two_one_three : ∃ n m : Node UnitAxis,
    ofBase ⟨9, Double.zero⟩ = .ok n ∧
    n.tryRanges [⟨2, some 1⟩, ⟨4, some 9⟩, ⟨1, some 1⟩, ⟨3, some 1⟩] =
      .ok ([⟨2, some 1⟩, ⟨1, some 1⟩, ⟨3, some 1⟩], m) ∧
    m.validateContiguity.outcome = .ok true := by
  have hrun : (root ⟨9, Double.zero⟩ : Node UnitAxis).tryRanges
        [⟨2, some 1⟩, ⟨4, some 9⟩, ⟨1, some 1⟩, ⟨3, some 1⟩] =
      .ok ([⟨2, some 1⟩, ⟨1, some 1⟩, ⟨3, some 1⟩],
        ⟨some ⟨9, Double.zero⟩, ⟨1, 1, 0, 9, 9, by decide⟩,
          [⟨some ⟨9, Double.zero⟩, ⟨2, 1, 0, 1, 4, by decide⟩, []⟩,
            ⟨some ⟨9, Double.zero⟩, ⟨1, 1, 5, 5, 8, by decide⟩, []⟩,
            ⟨some ⟨9, Double.zero⟩, ⟨3, 3, 2, 2, 2, by decide⟩, []⟩]⟩) := by rfl
  have hvalid := validateContiguity_tryRanges (ofBase_eq _) hrun
  -- The verdict is reached, so it is the one that is given.
  exact ⟨_, _, ofBase_eq _, hrun, hvalid.ok_of_ok rfl⟩

end Node

end Binning
