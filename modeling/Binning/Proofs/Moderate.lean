import Binning.CutSet
import Binning.Proofs.Tiling

/-!
# Calculating far from the ends of the range

The ends of the coordinates are far away from every bin of a sensible axis. Where all base
bins of a node are moderate numbers (`Binning.Grouping.Moderate`), nothing that is calculated
with them can overflow: each intermediate number is at most a few of these numbers away from
the next one, and the one product, a group number times a group size, differs from a base bin
by the skipped bins alone.

This file follows moderate nodes through everything that is done with a finished tree:

* `Binning.Node.Moderate.known_validateContiguity` – the validation has an answer;
* `Binning.Node.Moderate.flattens` – the edges are known, or they are more than a list can hold;
* `Binning.Node.Moderate.known_lines` – there is a description, if there is room for the
  indentation.

A computation that ends with a value is *known* (`Binning.Outcome.Known`), and steps that are
known are known together.
-/

namespace Binning

open Outcome Coordinate

/-! ### Known outcomes -/

namespace Outcome

variable {α β : Type}

/-- **A known outcome**: the computation ends with a value. -/
def Known (o : Outcome α) : Prop := ∃ a, o = .ok a

theorem known_ok (a : α) : Known (.ok a) := ⟨a, rfl⟩

theorem known_pure (a : α) : Known (pure a) := ⟨a, rfl⟩

/-- Step after step. -/
theorem Known.bind {o : Outcome α} {f : α → Outcome β} (h : Known o)
    (hf : ∀ a, o = .ok a → Known (f a)) : Known (o >>= f) := by
  obtain ⟨a, rfl⟩ := h
  exact hf a rfl

end Outcome

namespace Run

/-- Step after step of a run. -/
theorem known_bind {α β : Type} {r : Run α} {f : α → Run β} (h : Known r.outcome)
    (hf : ∀ a, r.outcome = .ok a → Known (f a).outcome) : Known (r >>= f).outcome := by
  rw [outcome_bind]
  exact h.bind hf

end Run

/-- A list is known if each of its values is. -/
theorem Coordinate.known_listFrom {α : Type} {f : Int → Outcome α} {start : Int} {n : Nat}
    (h : ∀ i : Nat, i < n → Known (f (start + i))) : Known (listFrom f start n) := by
  induction n generalizing start with
  | zero => exact known_ok []
  | succ n ih =>
    have hfirst : Known (f start) := by simpa using h 0 (Nat.succ_pos n)
    have hrest : Known (listFrom f (start + 1) n) := ih fun i hi => by
      have hshift : start + 1 + (i : Int) = start + ((i + 1 : Nat) : Int) := by omega
      rw [hshift]
      exact h (i + 1) (Nat.succ_lt_succ hi)
    exact hfirst.bind fun a _ => hrest.bind fun as _ => known_pure (a :: as)

/-! ### Moderate groupings -/

/-- A group has at least one bin, so a number of groups is no further from zero than the number
of their bins. -/
theorem groups_bounds {x size : Int} (hsize : 1 ≤ size) :
    min (x * size) 0 ≤ x ∧ x ≤ max (x * size) 0 := by
  rcases Int.le_total 0 x with hnonneg | hneg
  · have := Int.mul_le_mul_of_nonneg_left hsize hnonneg
    omega
  · have := Int.mul_le_mul_of_nonpos_left hneg hsize
    omega

namespace Grouping

/-- Later grouped bins start later. -/
theorem firstBin_mono (g : Grouping) {b b' : Int} (h : b ≤ b') : g.firstBin b ≤ g.firstBin b' := by
  have hsize := g.size_pos
  unfold firstBin
  split
  · exact h
  · have := Int.mul_le_mul_of_nonneg_right (c := g.size) (Int.sub_le_sub_right h 1) (by omega)
    omega

/-- Later grouped bins end later. -/
theorem lastBin_mono (g : Grouping) {b b' : Int} (h : b ≤ b') : g.lastBin b ≤ g.lastBin b' := by
  have := g.firstBin_mono (Int.add_le_add_right h 1)
  rw [firstBin_succ, firstBin_succ] at this
  omega

/-- A number of grouped bins is a number of base bins, and the skipped ones are added to it
unless the bins are grouped one by one. -/
theorem mul_size (g : Grouping) (b : Int) :
    b * g.size = g.lastBin b - if g.size = 1 then 0 else g.skip := by
  unfold lastBin
  split
  · next hone => rw [hone, Int.mul_one, Int.sub_zero]
  · rw [Int.add_sub_cancel]

/-- The groups before a grouped bin end before its first base bin, and the skipped ones are added
to them unless the bins are grouped one by one. -/
theorem pred_mul_size (g : Grouping) (b : Int) :
    (b - 1) * g.size = g.firstBin b - 1 - if g.size = 1 then 0 else g.skip := by
  have hstart := g.firstBin_succ (b - 1)
  rw [Int.sub_add_cancel] at hstart
  rw [g.mul_size]
  omega

/-- The last base bin of a grouped bin is calculated without an overflow if it is in range
both with and without the skipped bins. -/
theorem lastBase_of_inRange {g : Grouping} {b : Int} (hprod : InRange (b * g.size))
    (hlast : InRange (g.lastBin b)) : g.lastBase b = .ok (g.lastBin b) := by
  unfold lastBase
  unfold lastBin at hlast ⊢
  split
  · rfl
  · next hone =>
    rw [if_neg hone] at hlast
    rw [mul_of_inRange hprod, ok_bind, add_of_inRange hlast]

/-- The first base bin is calculated without an overflow if the last one before it and itself are
in range without the skipped bins, and itself also with them. -/
theorem firstBase_of_inRange {g : Grouping} {b : Int} (hskipped : InRange ((b - 1) * g.size))
    (hnext : InRange ((b - 1) * g.size + 1)) (hfirst : InRange (g.firstBin b)) :
    g.firstBase b = .ok (g.firstBin b) := by
  have hbefore := groups_bounds (x := b - 1) g.size_pos
  unfold InRange at hskipped
  unfold firstBase
  unfold firstBin at hfirst ⊢
  split
  · rfl
  · next hone =>
    rw [if_neg hone] at hfirst
    rw [sub_of_inRange ⟨by omega, by omega⟩, ok_bind, mul_of_inRange hskipped, ok_bind,
      add_of_inRange hnext, ok_bind, add_of_inRange hfirst]

/-- Moderately many base bins are counted without an overflow. -/
theorem width_of_bounds {g : Grouping} (h : -2 ^ 40 ≤ g.bins ∧ g.bins ≤ 2 ^ 40) :
    g.width = .ok g.bins := by
  have hgroups := groups_bounds (x := g.high - g.low + 1) g.size_pos
  rw [Int.mul_comm] at hgroups
  unfold bins at h ⊢
  rw [width, sub_of_inRange ⟨by omega, by omega⟩, ok_bind, add_of_inRange ⟨by omega, by omega⟩,
    ok_bind, mul_of_inRange ⟨by omega, by omega⟩]

/-- **A moderate grouping**: its local range starts and ends far from the ends of the
coordinates, and only moderately many bins are skipped. -/
structure Moderate (g : Grouping) : Prop where
  skip_nonneg : 0 ≤ g.skip
  skip_le : g.skip ≤ 2 ^ 40
  le_lower : -2 ^ 40 ≤ g.lower
  lower_le : g.lower ≤ 2 ^ 40
  le_upper : -2 ^ 40 ≤ g.upper
  upper_le : g.upper ≤ 2 ^ 40

namespace Moderate

variable {g : Grouping} (hg : g.Moderate)

include hg

/-- The last base bin of a grouped bin that ends at a moderate base bin. -/
theorem lastBase {b : Int} (hlow : -2 ^ 40 ≤ g.lastBin b) (hhigh : g.lastBin b ≤ 2 ^ 40) :
    g.lastBase b = .ok (g.lastBin b) := by
  have h1 := hg.skip_nonneg
  have h2 := hg.skip_le
  refine lastBase_of_inRange ?_ ⟨by omega, by omega⟩
  rw [g.mul_size]
  split <;> exact ⟨by omega, by omega⟩

/-- The first base bin of a grouped bin that starts at a moderate base bin. -/
theorem firstBase {b : Int} (hlow : -2 ^ 40 ≤ g.firstBin b) (hhigh : g.firstBin b ≤ 2 ^ 40) :
    g.firstBase b = .ok (g.firstBin b) := by
  have h1 := hg.skip_nonneg
  have h2 := hg.skip_le
  refine firstBase_of_inRange ?_ ?_ ⟨by omega, by omega⟩
  · rw [g.pred_mul_size]
    split <;> exact ⟨by omega, by omega⟩
  · rw [g.pred_mul_size]
    split <;> exact ⟨by omega, by omega⟩

theorem start_eq : g.start = .ok g.lower := hg.firstBase hg.le_lower hg.lower_le

theorem stop_eq : g.stop = .ok g.upper := hg.lastBase hg.le_upper hg.upper_le

/-- The base bins of every grouped bin of the local range are known. -/
theorem bases {b : Int} (hlow : g.low ≤ b) (hhigh : b ≤ g.high) :
    g.firstBase b = .ok (g.firstBin b) ∧ g.lastBase b = .ok (g.lastBin b) := by
  have h1 := hg.le_lower
  have h2 := hg.upper_le
  have hfirst : g.lower ≤ g.firstBin b := g.firstBin_mono hlow
  have hlast : g.lastBin b ≤ g.upper := g.lastBin_mono hhigh
  have hbin := g.firstBin_le_lastBin b
  exact ⟨hg.firstBase (by omega) (by omega), hg.lastBase (by omega) (by omega)⟩

/-- There are moderately many grouped bins. -/
theorem span_le : Coordinate.span g.low g.high ≤ 2 ^ 42 := by
  have h1 := hg.le_lower
  have h2 := hg.upper_le
  have hup := g.upper_eq
  have hgroups := groups_bounds (x := g.high - g.low + 1) g.size_pos
  rw [Int.mul_comm] at hgroups
  unfold bins at hup
  unfold Coordinate.span
  omega

end Moderate

end Grouping

/-! ### Moderate nodes -/

namespace Node

variable {β : Type}

/-- The widths of nodes are added up without an overflow if each sum on the way is moderate. -/
theorem totalWidth_of_bounds {total : Int} {ns : List (Node β)}
    (h : ∀ before after, ns = before ++ after →
      -2 ^ 32 ≤ total + covered before ∧ total + covered before ≤ 2 ^ 32) :
    totalWidth total ns = .ok (total + covered ns) := by
  induction ns generalizing total with
  | nil =>
    rw [covered_nil, Int.add_zero]
    rfl
  | cons n ns ih =>
    have hstart := h [] (n :: ns) rfl
    have hnext := h [n] ns rfl
    rw [covered_cons, covered_nil, Int.add_zero] at hnext
    rw [covered_nil] at hstart
    rw [totalWidth, Grouping.width_of_bounds ⟨by omega, by omega⟩, ok_bind,
      add_of_inRange ⟨by omega, by omega⟩, ok_bind, covered_cons, ← Int.add_assoc]
    refine ih fun before after heq => ?_
    have hsum := h (n :: before) after (by rw [heq, List.cons_append])
    rwa [covered_cons, ← Int.add_assoc] at hsum

/-- **A moderate node**: its own grouping and those of its childless children are moderate,
and so are the numbers of its local range. -/
structure Moderate (n : Node β) : Prop where
  grouping : n.grouping.Moderate
  low : -2 ^ 40 ≤ n.grouping.low ∧ n.grouping.low ≤ 2 ^ 40
  count : -2 ^ 40 ≤ n.grouping.count ∧ n.grouping.count ≤ 2 ^ 40
  children : ∀ c ∈ n.children, c.grouping.Moderate
  leaf : ∀ c ∈ n.children, c.children = []

variable [BaseAxis β]

/-! ### Describing -/

/-- A moderate grouped bin can be described. -/
theorem known_binLine (base : β) {g : Grouping} (hg : g.Moderate) (depth : Nat) {b : Int}
    (hlow : g.low ≤ b) (hhigh : b ≤ g.high) : Known (binLine base g depth b) := by
  obtain ⟨hfirst, hlast⟩ := hg.bases hlow hhigh
  rw [binLine, binText, hfirst, ok_bind, hlast]
  exact known_ok _

/-- Every grouped bin of a moderate grouping can be described. -/
theorem known_binLines (base : β) {g : Grouping} (hg : g.Moderate) (depth : Nat) :
    Known (binLines base g depth) := by
  have hspan := hg.span_le
  unfold binLines
  cases hn : Coordinate.span g.low g.high with
  | zero => exact known_ok []
  | succ n =>
    rw [hn] at hspan
    have hroom : n ≤ Capacity.maxChars := Nat.le_trans (Nat.le_of_succ_le hspan) (by decide)
    have hhigh : g.low + n = g.high := by
      unfold Coordinate.span at hn
      omega
    refine (known_binLine base hg depth (Int.le_refl _) (by omega)).bind fun first _ => ?_
    rw [Capacity.forChars, if_pos hroom, ok_bind]
    refine (known_listFrom fun i hi => ?_).bind fun rest _ => known_pure _
    exact known_binLine base hg depth (by omega) (by omega)

theorem known_groupingText {g : Grouping} (hg : g.Moderate) : Known (groupingText g) := by
  rw [groupingText, hg.start_eq, ok_bind, hg.stop_eq]
  exact known_ok _

section Lines

variable {o : DescribeOptions} {depth : Nat}

/-- A node with a moderate grouping can be described if its children can be. -/
theorem known_lines_of_below {n : Node β} (hg : n.grouping.Moderate)
    (hroom : 2 * depth ≤ Capacity.maxChars)
    (hbelow : Known (linesOfAll o (depth + 2) n.children)) : Known (n.lines o depth) := by
  obtain ⟨base, g, children⟩ := n
  rw [Node.lines.eq_def, Line.makeRoom, Capacity.forChars, if_pos hroom]
  cases base with
  | none => exact known_pure _
  | some base =>
    dsimp only
    rw [ok_bind]
    split
    · exact known_pure _
    · refine (known_groupingText hg).bind fun grouping _ => ?_
      split
      · exact (known_binLines base hg (depth + 1)).bind fun bins _ =>
          hbelow.bind fun below _ => known_pure _
      · exact hbelow.bind fun below _ => known_pure _

/-- Moderate nodes without children can be described. -/
theorem known_linesOfAll {ns : List (Node β)} (hns : ∀ c ∈ ns, c.grouping.Moderate)
    (hleaf : ∀ c ∈ ns, c.children = []) (hroom : 2 * depth ≤ Capacity.maxChars) :
    Known (linesOfAll o depth ns) := by
  induction ns with
  | nil => exact known_ok []
  | cons n ns ih =>
    have hhere : Known (n.lines o depth) := by
      refine known_lines_of_below (hns n List.mem_cons_self) hroom ?_
      rw [hleaf n List.mem_cons_self]
      exact known_ok []
    have hrest := ih (fun c hc => hns c (List.mem_cons_of_mem n hc))
      fun c hc => hleaf c (List.mem_cons_of_mem n hc)
    rw [linesOfAll]
    exact hhere.bind fun here _ => hrest.bind fun rest _ => known_pure _

end Lines

/-! ### Flattening -/

/-- The upper edges of a node are known if the ends of its grouped bins are. -/
theorem known_upEdges (base : β) {c : Node β}
    (h : ∀ b, c.grouping.low ≤ b → b ≤ c.grouping.high →
      c.grouping.lastBase b = .ok (c.grouping.lastBin b)) : Known (c.upEdges base) := by
  refine known_listFrom fun i hi => ?_
  have hhigh : c.grouping.low + i ≤ c.grouping.high := by
    unfold span Coordinate.span at hi
    omega
  exact Known.bind ⟨_, h _ (by omega) hhigh⟩ fun last _ => known_pure _

/-- The upper edges of nodes are known if those of each one are, or they are more than a list can
hold. -/
theorem known_upEdgesOfAll (base : β) (taken : Nat) {ns : List (Node β)}
    (hns : ∀ c ∈ ns, Known (c.upEdges base)) :
    Known (upEdgesOfAll base taken ns) ∨
      upEdgesOfAll base taken ns = .error .tooLarge ∧
        Capacity.maxEntries < taken + (groupedBins ns).length := by
  induction ns generalizing taken with
  | nil => exact Or.inl (known_ok [])
  | cons n ns ih =>
    have hlen : (groupedBins (n :: ns)).length = n.span + (groupedBins ns).length := by
      rw [groupedBins_cons, List.length_append, List.length_map, List.length_range]
    rw [upEdgesOfAll, hlen, ← Nat.add_assoc, Capacity.forEntries]
    obtain ⟨here, hhere⟩ := hns n List.mem_cons_self
    by_cases hroom : taken + n.span ≤ Capacity.maxEntries
    · rw [if_pos hroom, ok_bind, hhere, ok_bind]
      rcases ih (taken + n.span) fun c hc => hns c (List.mem_cons_of_mem n hc) with
        hrest | ⟨hrest, hlarge⟩
      · exact Or.inl (hrest.bind fun rest _ => known_pure _)
      · rw [hrest]
        exact Or.inr ⟨rfl, hlarge⟩
    · rw [if_neg hroom]
      exact Or.inr ⟨rfl, by omega⟩

/-- **The node flattens**: its edges are known, or they are more than a list can hold. -/
def Flattens (n : Node β) : Prop :=
  Known n.flattenedEdges ∨
    n.flattenedEdges = .error .tooLarge ∧
      Capacity.maxEntries < 1 + (groupedBins n.children).length

/-- A node flattens if the start of its first child and the ends of all grouped bins are known. -/
theorem flattens_of_known {n : Node β} (hcount : InRange (n.grouping.count + 1))
    (hroom : (n.grouping.count + 1).toNat ≤ Capacity.maxEntries)
    (hstart : ∀ first rest, n.children = first :: rest → Known first.grouping.start)
    (hup : ∀ base, ∀ c ∈ n.children, Known (c.upEdges base)) : n.Flattens := by
  unfold Flattens flattenedEdges
  cases hbase : n.base with
  | none => exact Or.inl (known_ok [])
  | some base =>
    cases hc : n.children with
    | nil => exact Or.inl (known_ok [])
    | cons first rest =>
      obtain ⟨start, hfirst⟩ := hstart first rest hc
      dsimp only
      rw [add_of_inRange hcount, ok_bind, Capacity.forEntries, if_pos hroom, ok_bind, hfirst,
        ok_bind, ← hc]
      rcases known_upEdgesOfAll base 1 (hup base) with hknown | ⟨hlarge, hlen⟩
      · exact Or.inl (hknown.bind fun up _ => known_pure _)
      · rw [hlarge]
        exact Or.inr ⟨rfl, hlen⟩

/-! ### What is done with a finished tree -/

namespace Moderate

variable {n : Node β} (hn : n.Moderate)

include hn

/-- **A moderate node can be described**, if there is room for its indentation and that of its
children. -/
theorem known_lines {o : DescribeOptions} {depth : Nat}
    (hroom : 2 * (depth + 2) ≤ Capacity.maxChars) : Known (n.lines o depth) :=
  known_lines_of_below hn.grouping (by omega) (known_linesOfAll hn.children hn.leaf hroom)

omit hn in
/-- The children of a moderate node are followed to the last one, or to a fault. -/
theorem known_follow {low expected : Int} {index : Nat} {rest : List (Node β)}
    (hlow : -2 ^ 40 ≤ low ∧ low ≤ 2 ^ 40) (hrest : ∀ c ∈ rest, c.grouping.Moderate)
    (hleaf : ∀ c ∈ rest, c.children = []) : Known (follow low index expected rest).outcome := by
  induction rest generalizing index expected with
  | nil => exact known_ok true
  | cons c rest ih =>
    have hc := hrest c List.mem_cons_self
    have h1 := hc.le_lower
    have h2 := hc.lower_le
    have h3 := hc.le_upper
    have h4 := hc.upper_le
    have hstart : c.shiftedStart low = .ok (c.grouping.lower + low - 1) := by
      rw [shiftedStart, hc.start_eq, ok_bind, add_of_inRange ⟨by omega, by omega⟩, ok_bind,
        sub_of_inRange ⟨by omega, by omega⟩]
    have hnext : c.next = .ok (c.grouping.upper + 1) := by
      rw [next, hc.stop_eq, ok_bind, add_of_inRange ⟨by omega, by omega⟩]
    rw [follow]
    refine Run.known_bind ⟨_, hstart⟩ fun start _ => ?_
    split
    · refine Run.known_bind ⟨_, hnext⟩ fun expected _ => ?_
      exact ih (fun c' hc' => hrest c' (List.mem_cons_of_mem c hc'))
        fun c' hc' => hleaf c' (List.mem_cons_of_mem c hc')
    · -- The fault is described before it is reported; the child has no children.
      have hdescribe : Known (c.describe DescribeOptions.full.withoutRanges) := by
        refine (known_lines_of_below hc (by decide) ?_).bind fun ls _ => known_pure _
        rw [hleaf c List.mem_cons_self]
        exact known_ok []
      exact Run.known_bind hdescribe fun text _ => Run.known_bind (known_ok ()) fun _ _ =>
        known_ok false

/-- **The validation of a moderate node has an answer.** -/
theorem known_validateContiguity : Known n.validateContiguity.outcome := by
  unfold Node.validateContiguity
  cases hc : n.children with
  | nil => exact known_ok false
  | cons first rest =>
    have hfirst := hn.children first (by simp [hc])
    have h1 := hfirst.le_upper
    have h2 := hfirst.upper_le
    have hnext : first.next = .ok (first.grouping.upper + 1) := by
      rw [next, hfirst.stop_eq, ok_bind, add_of_inRange ⟨by omega, by omega⟩]
    exact Run.known_bind ⟨_, hnext⟩ fun expected _ => known_follow hn.low
      (fun c h => hn.children c (by simp [hc, h])) fun c h => hn.leaf c (by simp [hc, h])

/-- **The edges of a moderate node are known**, or they are more than a list can hold. -/
theorem flattens : n.Flattens := by
  obtain ⟨hlow, hhigh⟩ := hn.count
  have hroom : (n.grouping.count + 1).toNat ≤ Capacity.maxEntries := by
    have : Capacity.maxEntries = 2 ^ 60 - 1 := rfl
    omega
  refine flattens_of_known ⟨by omega, by omega⟩ hroom (fun first rest hc => ?_) fun base c hc => ?_
  · exact ⟨_, (hn.children first (by simp [hc])).start_eq⟩
  · exact known_upEdges base fun b hlow hhigh => ((hn.children c hc).bases hlow hhigh).2

end Moderate

end Node

/-! ### Cut sets -/

namespace CutSet

variable {β : Type} [BaseAxis β]

section Trees

variable {ts : List (Node β)} (hts : ∀ t ∈ ts, t.Moderate)

include hts

/-- The dimensions of moderate trees are checked to the last one. -/
theorem known_validateFrom (index : Nat) : Known (validateFrom index ts).outcome := by
  induction ts generalizing index with
  | nil => exact known_ok true
  | cons t ts ih =>
    have hrest := ih (fun t' ht' => hts t' (List.mem_cons_of_mem t ht')) (index + 1)
    refine Run.known_bind (hts t List.mem_cons_self).known_validateContiguity fun valid _ => ?_
    dsimp only
    split
    · exact Run.known_bind (known_ok ()) fun _ _ => Run.known_bind hrest fun _ _ => known_ok _
    · exact Run.known_bind hrest fun _ _ => known_ok _

/-- The dimensions of moderate trees can be described. -/
theorem known_linesFrom {o : DescribeOptions} (hroom : 2 * (o.indent + 3) ≤ Capacity.maxChars)
    (index : Nat) : Known (linesFrom o index ts) := by
  induction ts generalizing index with
  | nil => exact known_ok []
  | cons t ts ih =>
    have hrest := ih (fun t' ht' => hts t' (List.mem_cons_of_mem t ht')) (index + 1)
    exact ((hts t List.mem_cons_self).known_lines hroom).bind fun here _ =>
      hrest.bind fun rest _ => known_pure _

end Trees

variable {c : CutSet β} (hc : ∀ t ∈ c.trees, t.Moderate)

include hc

/-- **The validation of moderate trees has an answer.** -/
theorem known_validate : Known c.validate.outcome := known_validateFrom hc 0

/-- **Moderate trees can be described**, if there is room for the indentation. -/
theorem known_describe {o : DescribeOptions} (hroom : 2 * (o.indent + 3) ≤ Capacity.maxChars) :
    Known (c.describe o) := by
  rw [describe, Line.makeRoom, Capacity.forChars, if_pos (by omega), ok_bind]
  exact (known_linesFrom hc hroom 0).bind fun ls _ => known_pure _

omit hc in
/-- **The edges of trees that flatten are known**, or those of one of them are more than a list can
hold. -/
theorem known_flattenedEdges (hflat : ∀ t ∈ c.trees, t.Flattens) :
    Known c.flattenedEdges ∨
      c.flattenedEdges = .error .tooLarge ∧
        ∃ t ∈ c.trees, Capacity.maxEntries < 1 + (Node.groupedBins t.children).length := by
  unfold flattenedEdges
  obtain ⟨ts⟩ := c
  induction ts with
  | nil => exact Or.inl (known_ok [])
  | cons t ts ih =>
    rw [List.mapM_cons]
    rcases hflat t List.mem_cons_self with ⟨es, hes⟩ | ⟨hlarge, hcount⟩
    · rw [hes, ok_bind]
      rcases ih fun t' ht' => hflat t' (List.mem_cons_of_mem t ht') with
        hrest | ⟨hrest, t', ht', hcount⟩
      · exact Or.inl (hrest.bind fun rest _ => known_pure _)
      · rw [hrest]
        exact Or.inr ⟨rfl, t', List.mem_cons_of_mem t ht', hcount⟩
    · rw [hlarge]
      exact Or.inr ⟨rfl, t, List.mem_cons_self, hcount⟩

end CutSet

end Binning
