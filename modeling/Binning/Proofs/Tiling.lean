import Binning.Node.Flatten
import Binning.Proofs.Exact

/-!
# Grouped bins that tile, and the edges they imply

The children of a node stand for a row of grouped bins, those of the first child, then
those of the second one, and so on (`Binning.Node.groupedBins`). The row *tiles* a
stretch of base bins if each grouped bin starts at the base bin after the end of the one
before it (`Binning.Tiles`). The bins of a single grouping always do
(`Binning.tiles_range`), and rows that meet can be joined (`Binning.Tiles.append`).

The ends of a tiling are its cuts through the base axis (`Binning.cuts`). They ascend
(`Binning.Tiles.pairwise_cuts`), each grouped bin lies between its cut and the one before
(`Binning.Tiles.getElem?_cuts`), and flattening reads the edges at the cuts
(`Binning.Node.flattenedEdges_eq_ok`).
-/

namespace Binning

open Outcome Coordinate

/-! ### Calculating in range -/

/-- What has room in a list can be counted by coordinates. -/
theorem Capacity.maxEntries_lt : Capacity.maxEntries < 2 ^ 63 - 1 := by decide

namespace Coordinate

theorem add_of_inRange {x y : Int} (h : InRange (x + y)) : add x y = .ok (x + y) :=
  checked_of_inRange h

theorem sub_of_inRange {x y : Int} (h : InRange (x - y)) : sub x y = .ok (x - y) :=
  checked_of_inRange h

theorem mul_of_inRange {x y : Int} (h : InRange (x * y)) : mul x y = .ok (x * y) :=
  checked_of_inRange h

/-- The values at coordinates from `start` on begin with the one at `start`. -/
theorem map_range_succ {α : Type} (v : Int → α) (start : Int) (n : Nat) :
    (List.range (n + 1)).map (fun (i : Nat) => v (start + i)) =
      v start :: (List.range n).map fun (i : Nat) => v (start + 1 + i) := by
  have hshift : ∀ i : Nat, start + 1 + (i : Int) = start + ((i + 1 : Nat) : Int) := fun i => by
    omega
  rw [List.range_succ_eq_map]
  simp [hshift, Function.comp_def]

/-- A list is complete if each of its values is known. -/
theorem listFrom_eq_ok {α : Type} {f : Int → Outcome α} {v : Int → α} (start : Int) {n : Nat}
    (h : ∀ i : Nat, i < n → f (start + i) = .ok (v (start + i))) :
    listFrom f start n = .ok ((List.range n).map fun (i : Nat) => v (start + i)) := by
  induction n generalizing start with
  | zero => rfl
  | succ n ih =>
    have hfirst : f start = .ok (v start) := by simpa using h 0 (by omega)
    have hrest := ih (start + 1) fun i hi => by
      have hshift : start + 1 + (i : Int) = start + ((i + 1 : Nat) : Int) := by omega
      rw [hshift]
      exact h (i + 1) (by omega)
    rw [listFrom, hfirst, ok_bind, hrest, ok_bind, pure_eq_ok, map_range_succ]

/-- A list of values that are given is given itself. -/
theorem listFrom_gives {α : Type} {f : Int → Outcome α} {v : Int → α}
    (h : ∀ b, Gives (f b) (v b)) (start : Int) (n : Nat) :
    Gives (listFrom f start n) ((List.range n).map fun (i : Nat) => v (start + i)) := by
  induction n generalizing start with
  | zero => exact gives_ok []
  | succ n ih =>
    rw [map_range_succ]
    exact (h start).bind ((ih (start + 1)).bind (gives_pure _))

end Coordinate

namespace Grouping

/-- Each grouped bin starts after the end of the one before it. -/
theorem firstBin_succ (g : Grouping) (b : Int) : g.firstBin (b + 1) = g.lastBin b + 1 := by
  unfold firstBin lastBin
  split
  · rfl
  · rw [Int.add_sub_cancel]
    omega

/-- No grouped bin is empty. -/
theorem firstBin_le_lastBin (g : Grouping) (b : Int) : g.firstBin b ≤ g.lastBin b := by
  unfold firstBin lastBin
  have hpos := g.size_pos
  split
  · exact Int.le_refl b
  · rw [Int.sub_mul]
    omega

section InRange

variable {g : Grouping} {b : Int} (hskip : 0 ≤ g.skip) (hb : 1 ≤ b) (hlast : g.lastBin b < 2 ^ 63)

include hskip hb hlast

/-- The last base bin of a grouped bin is calculated without an overflow if it is in
range, and neither the bins nor the skipped ones are counted backwards. -/
theorem lastBase_eq_ok : g.lastBase b = .ok (g.lastBin b) := by
  rw [lastBase]
  unfold lastBin at hlast ⊢
  by_cases hone : g.size = 1
  · simp only [hone, ↓reduceIte]
  · simp only [hone, ↓reduceIte] at hlast ⊢
    have hprod : 0 ≤ b * g.size := Int.mul_nonneg (by omega) (by have := g.size_pos; omega)
    rw [mul_of_inRange ⟨by omega, by omega⟩, ok_bind, add_of_inRange ⟨by omega, hlast⟩]

/-- The first base bin is calculated without an overflow if the last one is. -/
theorem firstBase_eq_ok : g.firstBase b = .ok (g.firstBin b) := by
  unfold firstBase firstBin
  unfold lastBin at hlast
  by_cases hone : g.size = 1
  · simp only [hone, ↓reduceIte]
  · simp only [hone, ↓reduceIte] at hlast ⊢
    have hpos := g.size_pos
    -- Every number on the way is between zero and the last base bin.
    have hbefore : 0 ≤ (b - 1) * g.size := Int.mul_nonneg (by omega) (by omega)
    have hsplit : b * g.size = (b - 1) * g.size + g.size := by ring
    have hle : (b - 1) * 1 ≤ (b - 1) * g.size := Int.mul_le_mul_of_nonneg_left hpos (by omega)
    rw [sub_of_inRange ⟨by omega, by omega⟩, ok_bind, mul_of_inRange ⟨by omega, by omega⟩, ok_bind,
      add_of_inRange ⟨by omega, by omega⟩, ok_bind, add_of_inRange ⟨by omega, by omega⟩]

end InRange

end Grouping

namespace Node

variable {β : Type}

theorem covered_nonneg {ns : List (Node β)} (h : ∀ c ∈ ns, c.grouping.low ≤ c.grouping.high) :
    0 ≤ covered ns := by
  induction ns with
  | nil => exact Int.le_refl 0
  | cons n ns ih =>
    have hhere := h n List.mem_cons_self
    have hrest := ih fun c hc => h c (List.mem_cons_of_mem n hc)
    have hbins : 0 ≤ n.grouping.bins :=
      Int.mul_nonneg (by have := n.grouping.size_pos; omega) (by omega)
    rw [covered_cons]
    omega

/-- The widths of nodes are added up without an overflow if the sum is in range. -/
theorem totalWidth_eq_ok {total : Int} {ns : List (Node β)}
    (h : ∀ c ∈ ns, c.grouping.low ≤ c.grouping.high) (htotal : 0 ≤ total)
    (hlt : total + covered ns < 2 ^ 63) : totalWidth total ns = .ok (total + covered ns) := by
  induction ns generalizing total with
  | nil =>
    rw [covered_nil, Int.add_zero]
    rfl
  | cons n ns ih =>
    have hhere := h n List.mem_cons_self
    have hrest : ∀ c ∈ ns, c.grouping.low ≤ c.grouping.high := fun c hc =>
      h c (List.mem_cons_of_mem n hc)
    have hnonneg := covered_nonneg hrest
    rw [covered_cons] at hlt ⊢
    -- A group has at least one base bin, so there are no more groups than base bins.
    have hbins : 1 * (n.grouping.high - n.grouping.low + 1) ≤ n.grouping.bins :=
      Int.mul_le_mul_of_nonneg_right n.grouping.size_pos (by omega)
    have hwidth : n.grouping.width = .ok n.grouping.bins := by
      rw [Grouping.width, sub_of_inRange ⟨by omega, by omega⟩, ok_bind,
        add_of_inRange ⟨by omega, by omega⟩, ok_bind]
      exact mul_of_inRange (show InRange n.grouping.bins from ⟨by omega, by omega⟩)
    rw [totalWidth, hwidth, ok_bind, add_of_inRange ⟨by omega, by omega⟩, ok_bind,
      ih hrest (by omega) (by omega), Int.add_assoc]

end Node

/-! ### Tilings -/

/-- **A row of grouped bins tiles** the base bins after `low` up to `high`. -/
def Tiles : Int → List (Grouping × Int) → Int → Prop
  | low, [], high => low = high
  | low, (g, b) :: rest, high => g.firstBin b = low + 1 ∧ Tiles (g.lastBin b) rest high

/-- The base bins at which grouped bins end. -/
def cuts (bins : List (Grouping × Int)) : List Nat := bins.map fun q => toBin (q.1.lastBin q.2)

theorem cuts_append (xs ys : List (Grouping × Int)) : cuts (xs ++ ys) = cuts xs ++ cuts ys :=
  List.map_append

/-- Tilings that meet can be joined. -/
theorem Tiles.append {low mid high : Int} {xs ys : List (Grouping × Int)} (hxs : Tiles low xs mid)
    (hys : Tiles mid ys high) : Tiles low (xs ++ ys) high := by
  induction xs generalizing low with
  | nil =>
    obtain rfl : low = mid := hxs
    exact hys
  | cons q xs ih =>
    obtain ⟨hfirst, hrest⟩ := hxs
    exact ⟨hfirst, ih hrest⟩

/-- **Consecutive bins of one grouping tile.** -/
theorem tiles_range (g : Grouping) (b : Int) (n : Nat) :
    Tiles (g.firstBin b - 1) ((List.range n).map fun (i : Nat) => (g, b + i))
      (g.firstBin (b + n) - 1) := by
  induction n with
  | zero =>
    change g.firstBin b - 1 = g.firstBin (b + 0) - 1
    rw [Int.add_zero]
  | succ n ih =>
    rw [List.range_succ, List.map_append]
    refine ih.append ⟨by omega, ?_⟩
    have hnext : b + ((n + 1 : Nat) : Int) = b + n + 1 := by omega
    change g.lastBin (b + n) = g.firstBin (b + ((n + 1 : Nat) : Int)) - 1
    rw [hnext, Grouping.firstBin_succ]
    omega

section Facts

variable {low high : Int} {bins : List (Grouping × Int)} (h : Tiles low bins high)

include h

/-- A tiling does not go backwards. -/
theorem Tiles.le : low ≤ high := by
  induction bins generalizing low with
  | nil => exact Int.le_of_eq h
  | cons q bins ih =>
    obtain ⟨hfirst, hrest⟩ := h
    have hle := q.1.firstBin_le_lastBin q.2
    have := ih hrest
    omega

/-- The grouped bins of a tiling lie within it. -/
theorem Tiles.within : ∀ q ∈ bins, low < q.1.firstBin q.2 ∧ q.1.lastBin q.2 ≤ high := by
  induction bins generalizing low with
  | nil => simp
  | cons q bins ih =>
    obtain ⟨hfirst, hrest⟩ := h
    have hle := q.1.firstBin_le_lastBin q.2
    intro q' hq'
    rcases List.mem_cons.mp hq' with rfl | hq'
    · exact ⟨by omega, hrest.le⟩
    · obtain ⟨hlow, hhigh⟩ := ih hrest q' hq'
      exact ⟨by omega, hhigh⟩

/-- **The cuts of a tiling ascend.** -/
theorem Tiles.pairwise_cuts (hlow : 0 ≤ low) : (toBin low :: cuts bins).Pairwise (· < ·) := by
  induction bins generalizing low with
  | nil => simp [cuts]
  | cons q bins ih =>
    have hall := h.within
    obtain ⟨hfirst, hrest⟩ := h
    have hle := q.1.firstBin_le_lastBin q.2
    refine List.Pairwise.cons (fun p hp => ?_) (ih hrest (by omega))
    obtain ⟨q', hq', rfl⟩ := List.mem_map.mp hp
    have := (hall q' hq').1
    have := q'.1.firstBin_le_lastBin q'.2
    unfold toBin
    omega

/-- **Where a grouped bin lies**: after the cut before it. -/
theorem Tiles.getElem?_cuts {j : Nat} {g : Grouping} {b : Int} (hj : bins[j]? = some (g, b)) :
    (toBin low :: cuts bins)[j]? = some (toBin (g.firstBin b - 1)) := by
  induction bins generalizing low j with
  | nil => simp at hj
  | cons q bins ih =>
    obtain ⟨hfirst, hrest⟩ := h
    cases j with
    | zero =>
      obtain rfl : q = (g, b) := Option.some.inj hj
      change g.firstBin b = low + 1 at hfirst
      simp [hfirst]
    | succ j => exact ih hrest hj

/-- The last cut of a tiling is its end. -/
theorem Tiles.getLast?_cuts : (toBin low :: cuts bins).getLast? = some (toBin high) := by
  induction bins generalizing low with
  | nil =>
    obtain rfl : low = high := h
    rfl
  | cons q bins ih =>
    obtain ⟨-, hrest⟩ := h
    exact ih hrest

end Facts

/-! ### Flattening -/

namespace Node

variable {β : Type}

/-- **The grouped bins of nodes**, in order, each with its grouping. -/
def groupedBins (ns : List (Node β)) : List (Grouping × Int) :=
  ns.flatMap fun n => (List.range n.span).map fun (i : Nat) => (n.grouping, n.grouping.low + i)

theorem groupedBins_cons (n : Node β) (ns : List (Node β)) :
    groupedBins (n :: ns) =
      (List.range n.span).map (fun (i : Nat) => (n.grouping, n.grouping.low + i)) ++
        groupedBins ns :=
  List.flatMap_cons

theorem groupedBins_singleton (n : Node β) : groupedBins [n] =
    (List.range n.span).map fun (i : Nat) => (n.grouping, n.grouping.low + i) :=
  (groupedBins_cons n []).trans (List.append_nil _)

theorem groupedBins_append (ns ns' : List (Node β)) :
    groupedBins (ns ++ ns') = groupedBins ns ++ groupedBins ns' :=
  List.flatMap_append

/-- The grouped bins of nodes are those in their local ranges. -/
theorem mem_groupedBins {ns : List (Node β)} {q : Grouping × Int} :
    q ∈ groupedBins ns ↔
      ∃ c ∈ ns, q.1 = c.grouping ∧ c.grouping.low ≤ q.2 ∧ q.2 ≤ c.grouping.high := by
  refine List.mem_flatMap.trans (exists_congr fun c => and_congr_right fun _ => ?_)
  obtain ⟨g, b⟩ := q
  rw [List.mem_map]
  unfold span Coordinate.span
  constructor
  · rintro ⟨i, hi, heq⟩
    obtain ⟨rfl, rfl⟩ := Prod.mk.inj heq
    have := List.mem_range.mp hi
    exact ⟨rfl, by omega, by omega⟩
  · rintro ⟨rfl, hlow, hhigh⟩
    refine ⟨(b - c.grouping.low).toNat, List.mem_range.mpr (by omega), Prod.ext rfl ?_⟩
    dsimp only
    omega

variable [BaseAxis β]

/-- The upper edges of all grouped bins, if there is room for them and their ends are
calculated without an overflow. -/
theorem upEdgesOfAll_eq_ok (base : β) (taken : Nat) {ns : List (Node β)}
    (hroom : taken + (groupedBins ns).length ≤ Capacity.maxEntries)
    (hends : ∀ q ∈ groupedBins ns, q.1.lastBase q.2 = .ok (q.1.lastBin q.2)) :
    upEdgesOfAll base taken ns = .ok ((cuts (groupedBins ns)).map (BaseAxis.upEdge base)) := by
  induction ns generalizing taken with
  | nil => rfl
  | cons n ns ih =>
    rw [groupedBins_cons, List.length_append, List.length_map, List.length_range] at hroom
    rw [groupedBins_cons] at hends ⊢
    have hhere : upEdges base n = .ok ((List.range n.span).map fun (i : Nat) =>
        BaseAxis.upEdge base (toBin (n.grouping.lastBin (n.grouping.low + i)))) := by
      refine listFrom_eq_ok (v := fun b => BaseAxis.upEdge base (toBin (n.grouping.lastBin b)))
        n.grouping.low fun i hi => ?_
      have hlast := hends (n.grouping, n.grouping.low + i)
        (List.mem_append_left _ (List.mem_map.mpr ⟨i, List.mem_range.mpr hi, rfl⟩))
      rw [hlast]
      rfl
    have hrest := ih (taken + n.span) (by omega) fun q hq =>
      hends q (List.mem_append_right _ hq)
    rw [upEdgesOfAll, Capacity.forEntries, if_pos (by omega), ok_bind, hhere, ok_bind, hrest,
      ok_bind, pure_eq_ok]
    simp [cuts, Function.comp_def]

/-- **The edges that children imply**, if there is room for them and nothing overflows:
the lower edge of the first child, and the upper edges at all cuts. -/
theorem flattenedEdges_eq_ok {base : β} {n first : Node β} {rest : List (Node β)}
    (hbase : n.base = some base) (hchildren : n.children = first :: rest)
    (hcount : 0 ≤ n.grouping.count ∧ n.grouping.count < Capacity.maxEntries)
    (hstart : first.grouping.start = .ok first.grouping.lower)
    (hroom : (groupedBins n.children).length < Capacity.maxEntries)
    (hends : ∀ q ∈ groupedBins n.children, q.1.lastBase q.2 = .ok (q.1.lastBin q.2)) :
    n.flattenedEdges = .ok (BaseAxis.lowEdge base (toBin first.grouping.lower) ::
      (cuts (groupedBins n.children)).map (BaseAxis.upEdge base)) := by
  have hup := upEdgesOfAll_eq_ok base 1 (by omega) hends
  have hmax := Capacity.maxEntries_lt
  rw [hchildren] at hup
  rw [flattenedEdges, hbase, hchildren]
  dsimp only
  rw [add_of_inRange ⟨by omega, by omega⟩, ok_bind, Capacity.forEntries, if_pos (by omega), ok_bind,
    hstart, ok_bind, hup]
  rfl

/-- The upper edges of all grouped bins, if they are known at all. -/
theorem eq_of_upEdgesOfAll {base : β} {taken : Nat} {ns : List (Node β)} {es : List Double}
    (h : upEdgesOfAll base taken ns = .ok es) :
    es = (cuts (groupedBins ns)).map (BaseAxis.upEdge base) := by
  induction ns generalizing taken es with
  | nil => exact (Except.ok.inj h).symm
  | cons n ns ih =>
    obtain ⟨_, -, h⟩ := bind_eq_ok.mp h
    obtain ⟨here, hhere, h⟩ := bind_eq_ok.mp h
    obtain ⟨rest, hrest, h⟩ := bind_eq_ok.mp h
    obtain rfl : here ++ rest = es := pure_eq_ok.mp h
    have hgives : Gives (upEdges base n) ((List.range n.span).map fun (i : Nat) =>
        BaseAxis.upEdge base (toBin (n.grouping.lastBin (n.grouping.low + i)))) :=
      listFrom_gives (v := fun b => BaseAxis.upEdge base (toBin (n.grouping.lastBin b)))
        (fun b => (n.grouping.lastBase_gives b).bind (gives_pure _)) n.grouping.low n.span
    rw [hgives.eq_of_ok hhere, ih hrest, groupedBins_cons]
    simp [cuts, Function.comp_def]

/-- **The edges that children imply**, if they are known at all: the lower edge of the first
child, and the upper edges at all cuts. -/
theorem eq_of_flattenedEdges {base : β} {n first : Node β} {rest : List (Node β)}
    {es : List Double} (hbase : n.base = some base) (hchildren : n.children = first :: rest)
    (h : n.flattenedEdges = .ok es) :
    es = BaseAxis.lowEdge base (toBin first.grouping.lower) ::
      (cuts (groupedBins n.children)).map (BaseAxis.upEdge base) := by
  rw [flattenedEdges, hbase, hchildren] at h
  obtain ⟨_, -, h⟩ := bind_eq_ok.mp h
  obtain ⟨_, -, h⟩ := bind_eq_ok.mp h
  obtain ⟨start, hstart, h⟩ := bind_eq_ok.mp h
  obtain ⟨up, hup, h⟩ := bind_eq_ok.mp h
  obtain rfl := pure_eq_ok.mp h
  rw [first.grouping.start_gives.eq_of_ok hstart, eq_of_upEdgesOfAll hup, hchildren]

/-- A node that implies any edges gives them to the axis. -/
theorem flatten_eq_ok {n : Node β} {e : Double} {es : List Double}
    (h : n.flattenedEdges = .ok (e :: es)) (target : Axis) :
    (n.flatten target).outcome = .ok (target.setEdges (e :: es)) := by
  refine Run.outcome_bind_eq_ok.mpr ⟨e :: es, h, ?_⟩
  rw [if_neg (by simp)]
  exact Run.outcome_bind_eq_ok.mpr ⟨(), rfl, rfl⟩

end Node

end Binning
