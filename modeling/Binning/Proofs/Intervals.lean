import Binning.Proofs.Containment
import Binning.Proofs.Flattening
import Binning.Proofs.Gap

/-!
# The intervals of a flattened node

The edges that a node implies begin with the lower edge of its first child. After this no
lower edge is looked at: there follows the upper edge of every grouped bin. A description
shows an interval for every grouped bin, with the edges on both sides
(`Binning.Node.interval`). On a node that starts at `1` and passes the validation the two agree,
as long as its children are not empty and do not start in the underflow bin: from each edge to the
next goes the interval of one grouped bin, in order (`Binning.Node.flattenedEdges_intervals`).

The agreement rests on three facts.

* The children are a chain, so their grouped bins tile the base bins, whatever sizes and skip
  offsets they mix (`Binning.Node.tiles_of_validateContiguity`).
* A bin starts where the bin before it ends, on the axis and beyond it
  (`Binning.Axis.lowEdge_succ`).
* Validation has looked at both ends of each child. If these are known, then all base bins
  between them are (`Binning.Grouping.bases_of_ends`).

There is one thing left that can go wrong. Room is made for one edge more than the grouped bins that
fit the axis, and if a node skips bins backwards these can be many more than its edges.
`Binning.Node.HasRoom` says when there is room, and `Binning.Node.flattenedEdges_too_large` is a
node with five intervals and no edges.
-/

namespace Binning

open Outcome Coordinate

/-! ### All base bins between two known ends -/

namespace Grouping

/-- If the start of a grouped bin is known, every number on the way to it is a coordinate. -/
theorem inRange_of_firstBase {g : Grouping} {b first : Int} (hne : g.size ≠ 1)
    (h : g.firstBase b = .ok first) : InRange (b - 1) ∧ InRange ((b - 1) * g.size) ∧
      InRange ((b - 1) * g.size + 1) ∧ InRange ((b - 1) * g.size + 1 + g.skip) := by
  rw [firstBase, if_neg hne] at h
  obtain ⟨before, hbefore, h⟩ := bind_eq_ok.mp h
  obtain rfl := (gives_sub _ _).eq_of_ok hbefore
  obtain ⟨skipped, hskipped, h⟩ := bind_eq_ok.mp h
  obtain rfl := (gives_mul _ _).eq_of_ok hskipped
  obtain ⟨next, hnext, h⟩ := bind_eq_ok.mp h
  obtain rfl := (gives_add _ _).eq_of_ok hnext
  exact ⟨inRange_of_checked hbefore, inRange_of_checked hskipped, inRange_of_checked hnext,
    inRange_of_checked h⟩

/-- **All base bins of a local range are known** if its two ends are. -/
theorem bases_of_ends {g : Grouping} {start stop b : Int} (hstart : g.start = .ok start)
    (hstop : g.stop = .ok stop) (hlow : g.low ≤ b) (hhigh : b ≤ g.high) :
    g.firstBase b = .ok (g.firstBin b) ∧ g.lastBase b = .ok (g.lastBin b) := by
  by_cases hone : g.size = 1
  · rw [firstBase, lastBase, firstBin, lastBin, if_pos hone, if_pos hone, if_pos hone, if_pos hone]
    exact ⟨rfl, rfl⟩
  have hsize := g.size_pos
  obtain ⟨-, hskipped, hnext, hfirst⟩ := inRange_of_firstBase hone hstart
  obtain ⟨hproduct, hlast⟩ := inRange_of_lastBase hone hstop
  -- Every number on the way is between the ones for `low` and those for `high`.
  have hfrom : (g.low - 1) * g.size ≤ (b - 1) * g.size :=
    Int.mul_le_mul_of_nonneg_right (Int.sub_le_sub_right hlow 1) (by omega)
  have hto : b * g.size ≤ g.high * g.size := Int.mul_le_mul_of_nonneg_right hhigh (by omega)
  have hgroup : b * g.size = (b - 1) * g.size + g.size := by ring
  unfold InRange at hskipped hnext hfirst hproduct hlast
  constructor
  · refine firstBase_of_inRange ⟨by omega, by omega⟩ ⟨by omega, by omega⟩ ?_
    rw [firstBin, if_neg hone]
    exact ⟨by omega, by omega⟩
  · refine lastBase_of_inRange ⟨by omega, by omega⟩ ?_
    rw [lastBin, if_neg hone]
    exact ⟨by omega, by omega⟩

end Grouping

namespace Node

variable {β : Type} [BaseAxis β]

/-! ### One axis for all nodes of a tree -/

omit [BaseAxis β] in
/-- What every node of a tree has, every node below one of them has. -/
theorem Everywhere.of_get? {Q : Node β → Prop} {t n : Node β} {path : List Nat}
    (h : t.Everywhere Q) (hn : t.get? path = some n) : n.Everywhere Q := by
  induction path generalizing t with
  | nil =>
    obtain rfl : t = n := Option.some.inj hn
    exact h
  | cons i path ih =>
    obtain ⟨c, hc, hget⟩ := Option.bind_eq_some_iff.mp hn
    exact ih ((everywhere_iff.mp h).2 c (List.mem_of_getElem? hc)) hget

/-- **All nodes of a grown tree share the axis of its root.** -/
theorem everywhere_base_of_tryAppends {t t' : Node β} {calls accepted : List (List Nat × Append)}
    (hleaf : t.children = []) (h : t.tryAppends calls = .ok (accepted, t')) :
    t'.Everywhere fun n => n.base = t.base := by
  have hroot : t.Everywhere fun n => n.base = t.base := by
    refine everywhere_iff.mpr ⟨rfl, ?_⟩
    simp [hleaf]
  exact Run.attempts_induction (P := fun _ t' => t'.Everywhere fun n => n.base = t.base)
    (fun _ _ _ _ hs hcall => everywhere_base_of_appendAt hcall hs) h [] hroot

/-! ### What is described -/

/-- **The interval of a grouped bin**: from the lower edge of its first base bin to the upper edge
of its last one. -/
def interval (base : β) (q : Grouping × Int) : Double × Double :=
  (BaseAxis.lowEdge base (toBin (q.1.firstBin q.2)), BaseAxis.upEdge base (toBin (q.1.lastBin q.2)))

/-- The text that describes a grouped bin: its number, its base bins, its interval, and its label
if it is a single bin. -/
def shownText (base : β) (q : Grouping × Int) : String :=
  "[" ++ toString q.2 ++ "] base " ++ toString (q.1.firstBin q.2) ++ ".." ++
    toString (q.1.lastBin q.2) ++ ": [" ++ Layout.bound.text (interval base q).1 ++ ", " ++
    Layout.bound.text (interval base q).2 ++ ")" ++
    (match if q.1.firstBin q.2 = q.1.lastBin q.2 then
        BaseAxis.label base (toBin (q.1.firstBin q.2)) else none with
      | some l => " \"" ++ l ++ "\""
      | none => "")

/-- The lines that describe the grouped bins of a node, indented to a depth. -/
def shownLines (base : β) (depth : Nat) (n : Node β) : List Line :=
  (groupedBins [n]).map fun q => ⟨depth, shownText base q⟩

/-- A grouped bin is described if its base bins are known. -/
theorem binLine_eq_ok (base : β) {g : Grouping} (depth : Nat) {b : Int}
    (hfirst : g.firstBase b = .ok (g.firstBin b)) (hlast : g.lastBase b = .ok (g.lastBin b)) :
    binLine base g depth b = .ok ⟨depth, shownText base (g, b)⟩ := by
  rw [binLine, binText, hfirst, ok_bind, hlast]
  rfl

/-- The grouped bins of a node are described if their base bins are known and there is room for
the line breaks. -/
theorem binLines_eq_ok (base : β) {n : Node β} (depth : Nat)
    (hbases : ∀ b, n.grouping.low ≤ b → b ≤ n.grouping.high →
      n.grouping.firstBase b = .ok (n.grouping.firstBin b) ∧
        n.grouping.lastBase b = .ok (n.grouping.lastBin b))
    (hroom : n.span ≤ Capacity.maxChars + 1) :
    binLines base n.grouping depth = .ok (shownLines base depth n) := by
  have hspan : n.span = Coordinate.span n.grouping.low n.grouping.high := rfl
  have hall : listFrom (binLine base n.grouping depth) n.grouping.low n.span =
      .ok (shownLines base depth n) := by
    rw [shownLines, groupedBins_singleton, List.map_map]
    refine listFrom_eq_ok (v := fun b => Line.mk depth (shownText base (n.grouping, b))) _
      fun i hi => ?_
    unfold span Coordinate.span at hi
    obtain ⟨hfirst, hlast⟩ := hbases (n.grouping.low + i) (by omega) (by omega)
    exact binLine_eq_ok base depth hfirst hlast
  -- The first line is made before there is room for the others.
  rw [hspan] at hall hroom
  unfold binLines
  cases hn : Coordinate.span n.grouping.low n.grouping.high with
  | zero => rwa [hn] at hall
  | succ k =>
    rw [hn] at hall hroom
    obtain ⟨first, hfirst, hall⟩ := bind_eq_ok.mp hall
    obtain ⟨rest, hrest, hall⟩ := bind_eq_ok.mp hall
    dsimp only
    rw [hfirst, ok_bind, Capacity.forChars, if_pos (by omega), ok_bind, hrest]
    exact hall

/-! ### The description of a node -/

section Lines

variable {o : DescribeOptions} {depth : Nat} {ls : List Line}

/-- The lines that describe a node hold those of its grouped bins and those of its children. -/
theorem infix_of_lines {base : β} {n : Node β} (hbase : n.base = some base)
    (hfull : o.baseOnly = false) (hranges : o.ranges = true) (h : n.lines o depth = .ok ls) :
    (∃ bins, binLines base n.grouping (depth + 1) = .ok bins ∧ bins <:+: ls) ∧
      ∃ below, linesOfAll o (depth + 2) n.children = .ok below ∧ below <:+: ls := by
  obtain ⟨_, g, children⟩ := n
  obtain rfl := hbase
  rw [Node.lines.eq_def] at h
  obtain ⟨_, -, h⟩ := bind_eq_ok.mp h
  dsimp only at h
  rw [hfull, hranges, if_neg (by decide)] at h
  obtain ⟨grouping, -, h⟩ := bind_eq_ok.mp h
  obtain ⟨bins, hbins, h⟩ := bind_eq_ok.mp h
  obtain ⟨below, hbelow, h⟩ := bind_eq_ok.mp h
  obtain rfl := pure_eq_ok.mp h
  refine ⟨⟨bins, hbins, ?_⟩, below, hbelow, ?_⟩
  · exact List.infix_cons (List.infix_cons ((List.prefix_append bins _).isInfix.trans
      (List.prefix_append _ below).isInfix))
  · exact List.infix_cons (List.infix_cons (List.suffix_append _ below).isInfix)

/-- The lines that describe nodes hold those of each one. -/
theorem infix_of_linesOfAll {ns : List (Node β)} (h : linesOfAll o depth ns = .ok ls) {c : Node β}
    (hc : c ∈ ns) : ∃ here, c.lines o depth = .ok here ∧ here <:+: ls := by
  induction ns generalizing ls with
  | nil => simp at hc
  | cons n ns ih =>
    rw [linesOfAll.eq_def] at h
    obtain ⟨here, hhere, h⟩ := bind_eq_ok.mp h
    obtain ⟨rest, hrest, h⟩ := bind_eq_ok.mp h
    obtain rfl := pure_eq_ok.mp h
    rcases List.mem_cons.mp hc with rfl | hc
    · exact ⟨here, hhere, List.prefix_append here rest |>.isInfix⟩
    · obtain ⟨inner, hinner, hinfix⟩ := ih hrest hc
      exact ⟨inner, hinner, hinfix.trans (List.suffix_append here rest).isInfix⟩

/-- The lines that describe a node hold those of the grouped bins of its children. -/
theorem infix_of_lines_child {base : β} {n c : Node β} (hbase : n.base = some base)
    (hc : c ∈ n.children) (hcbase : c.base = some base) (hfull : o.baseOnly = false)
    (hranges : o.ranges = true) (h : n.lines o depth = .ok ls) :
    ∃ bins, binLines base c.grouping (depth + 3) = .ok bins ∧ bins <:+: ls := by
  obtain ⟨-, below, hbelow, hinfix⟩ := infix_of_lines hbase hfull hranges h
  obtain ⟨here, hhere, hinfix'⟩ := infix_of_linesOfAll hbelow hc
  obtain ⟨⟨bins, hbins, hinfix''⟩, -⟩ := infix_of_lines hcbase hfull hranges hhere
  exact ⟨bins, hbins, (hinfix''.trans hinfix').trans hinfix⟩

end Lines

/-! ### Room for the edges -/

/-- **There is room for the edges of a node**: for one more than its grouped bins, as far as they
fit the axis, and for one more than those of its children. -/
def HasRoom (n : Node β) : Prop :=
  InRange (n.grouping.count + 1) ∧ (n.grouping.count + 1).toNat ≤ Capacity.maxEntries ∧
    1 + (groupedBins n.children).length ≤ Capacity.maxEntries

instance : DecidablePred (HasRoom (β := β)) := fun _ => inferInstanceAs (Decidable (_ ∧ _))

/-- If the ends of all grouped bins are known, the edges are known exactly if there is room. -/
theorem known_flattenedEdges_iff {base : β} {n first : Node β} {rest : List (Node β)}
    (hbase : n.base = some base) (hchildren : n.children = first :: rest)
    (hstart : Known first.grouping.start) (hup : ∀ base, ∀ c ∈ n.children, Known (c.upEdges base)) :
    Known n.flattenedEdges ↔ n.HasRoom := by
  constructor
  · rintro ⟨es, hes⟩
    have hlen := room_of_flattenedEdges hbase hes
    rw [flattenedEdges, hbase, hchildren] at hes
    obtain ⟨room, hroom, hes⟩ := bind_eq_ok.mp hes
    obtain ⟨_, hentries, -⟩ := bind_eq_ok.mp hes
    obtain rfl := (gives_add _ _).eq_of_ok hroom
    refine ⟨inRange_of_checked hroom, ?_, hlen⟩
    unfold Capacity.forEntries at hentries
    split at hentries
    · assumption
    · cases hentries
  · rintro ⟨hcount, hentries, hlen⟩
    have hflat : n.Flattens := by
      refine flattens_of_known hcount hentries (fun first' rest' hc => ?_) hup
      obtain rfl := (List.cons.inj (hc.symm.trans hchildren)).1
      exact hstart
    exact hflat.resolve_right fun h => absurd hlen (by omega)

end Node

/-! ### Intervals of a tiling -/

namespace Axis

/-- A bin starts where the bin before it ends. -/
theorem lowEdge_succ (a : Axis) (p : Nat) : a.lowEdge (p + 1) = a.upEdge p := by
  rw [lowEdge, if_neg (Nat.succ_ne_zero p), Nat.add_sub_cancel]
  rfl

/-- **Consecutive cuts of a tiling** are the intervals of its grouped bins. -/
theorem zip_cuts (a : Axis) {low high : Int} {bins : List (Grouping × Int)}
    (h : Tiles low bins high) (hlow : 0 ≤ low) :
    (a.upEdge (toBin low) :: (cuts bins).map a.upEdge).zip ((cuts bins).map a.upEdge) =
      bins.map (Node.interval a) := by
  induction bins generalizing low with
  | nil => rfl
  | cons q bins ih =>
    obtain ⟨hfirst, hrest⟩ := h
    have hle := q.1.firstBin_le_lastBin q.2
    have hstart : a.upEdge (toBin low) = a.lowEdge (toBin (q.1.firstBin q.2)) := by
      have hnext : toBin (q.1.firstBin q.2) = toBin low + 1 := by
        unfold toBin
        omega
      rw [hnext, lowEdge_succ]
    have htail := ih hrest (by omega)
    change (_, a.upEdge (toBin (q.1.lastBin q.2))) :: _ = _ :: _
    rw [hstart, ← htail]
    rfl

end Axis

namespace Node

variable {β : Type}

/-! ### A validated node -/

/-- The base bin after a node is known only if its end is, and this is not the last coordinate. -/
theorem stop_of_next {n : Node β} {next : Int} (h : n.next = .ok next) :
    n.grouping.stop = .ok n.grouping.upper ∧ n.grouping.upper < 2 ^ 63 - 1 := by
  obtain ⟨stop, hstop, hadd⟩ := bind_eq_ok.mp h
  obtain rfl := n.grouping.stop_gives.eq_of_ok hstop
  have hrange := inRange_of_checked hadd
  unfold InRange at hrange
  exact ⟨hstop, by omega⟩

section Validated

variable [BaseAxis β] {n first : Node β} {rest : List (Node β)} {start : Int}
  (hvalid : n.validateContiguity.outcome = .ok true) (hchildren : n.children = first :: rest)
  (hstart : first.grouping.start = .ok start)

include hvalid hchildren hstart

/-- Both ends of all children are known. -/
theorem ends_of_validateContiguity : ∀ c ∈ n.children,
    c.grouping.start = .ok c.grouping.lower ∧ c.next = .ok (c.grouping.upper + 1) := by
  obtain ⟨-, hnext, hends⟩ := chain_of_validateContiguity hvalid hchildren
  rw [hchildren]
  intro c hc
  rcases List.mem_cons.mp hc with rfl | hc
  · exact ⟨c.grouping.start_gives.ok_of_ok hstart, hnext⟩
  · exact hends c hc

/-- All base bins of all children are known. -/
theorem bases_of_validateContiguity : ∀ c ∈ n.children, ∀ b : Int, c.grouping.low ≤ b →
    b ≤ c.grouping.high → c.grouping.firstBase b = .ok (c.grouping.firstBin b) ∧
      c.grouping.lastBase b = .ok (c.grouping.lastBin b) := by
  intro c hc b hlow hhigh
  obtain ⟨hfirst, hnext⟩ := ends_of_validateContiguity hvalid hchildren hstart c hc
  exact Grouping.bases_of_ends hfirst (stop_of_next hnext).1 hlow hhigh

variable (hlow : n.grouping.low = 1)
  (hfull : ∀ c ∈ n.children, c.grouping.low ≤ c.grouping.high)

include hlow hfull

/-- **The grouped bins of the children tile** the base bins from the start of the first child on. -/
theorem tiles_of_validateContiguity : ∃ high, Tiles (start - 1) (groupedBins n.children) high := by
  obtain ⟨hchain, -, -⟩ := chain_of_validateContiguity hvalid hchildren
  obtain rfl := first.grouping.start_gives.eq_of_ok hstart
  rw [hlow] at hchain
  rw [hchildren] at hchain hfull ⊢
  obtain ⟨c, -, htiles⟩ := exists_tiles_of_isChain hchain fun c hc => (hfull c hc).trans (by omega)
  exact ⟨_, htiles⟩

/-- There are no more grouped bins in a child than there are coordinates above zero. -/
theorem span_of_validateContiguity (hpos : 1 ≤ start) :
    ∀ c ∈ n.children, c.span ≤ Capacity.maxChars := by
  intro c hc
  obtain ⟨high, htiles⟩ := tiles_of_validateContiguity hvalid hchildren hstart hlow hfull
  obtain ⟨-, hnext⟩ := ends_of_validateContiguity hvalid hchildren hstart c hc
  have hle := hfull c hc
  have hmem : (c.grouping, c.grouping.low) ∈ groupedBins n.children :=
    mem_groupedBins.mpr ⟨c, hc, rfl, Int.le_refl _, hle⟩
  have hlower : start - 1 < c.grouping.lower := (htiles.within _ hmem).1
  have hupper := (stop_of_next hnext).2
  have hmax : Capacity.maxChars = 2 ^ 63 - 1 := rfl
  -- A group has at least one base bin.
  have hbins : 1 * (c.grouping.high - c.grouping.low + 1) ≤ c.grouping.bins :=
    Int.mul_le_mul_of_nonneg_right c.grouping.size_pos (by omega)
  rw [c.grouping.upper_eq] at hupper
  unfold span Coordinate.span
  omega

end Validated

/-! ### The edges and the intervals -/

/-- The grouped bins of nodes are as many as their local ranges have. -/
theorem length_groupedBins (ns : List (Node β)) :
    (groupedBins ns).length = (ns.map span).sum := by
  induction ns with
  | nil => rfl
  | cons n ns ih =>
    rw [groupedBins_cons, List.length_append, List.length_map, List.length_range, ih, List.map_cons,
      List.sum_cons]

/-- **All edges of a node are upper edges**: the first one is that of the base bin before the first
child, and the others are at the cuts. -/
theorem eq_upEdges_of_flattenedEdges {axis : Axis} {n first : Node Axis} {rest : List (Node Axis)}
    {start : Int} {es : List Double} (hbase : n.base = some axis)
    (hchildren : n.children = first :: rest) (hstart : first.grouping.start = .ok start)
    (hpos : 1 ≤ start) (h : n.flattenedEdges = .ok es) :
    es = axis.upEdge (toBin (start - 1)) :: (cuts (groupedBins n.children)).map axis.upEdge := by
  have hedges := eq_of_flattenedEdges hbase hchildren h
  rw [← first.grouping.start_gives.eq_of_ok hstart] at hedges
  have hfirst : toBin start = toBin (start - 1) + 1 := by
    unfold toBin
    omega
  have hlowest : BaseAxis.lowEdge axis (toBin start) = axis.upEdge (toBin (start - 1)) := by
    rw [hfirst]
    exact axis.lowEdge_succ _
  rw [hedges, hlowest]
  rfl

/-- **The edges of a node and the intervals of its grouped bins**, for every node that starts at
`1` and passes the validation, in a tree grown over any axis, whose children are not empty and do
not start in the underflow bin. The edges are known exactly if there is room for them. Then there
is one edge more than there are grouped bins, and from each edge to the next goes the interval of
one of them, in order. A description of the node shows these intervals. -/
theorem flattenedEdges_intervals {axis : Axis} {t t' n first : Node Axis} {rest : List (Node Axis)}
    {calls accepted : List (List Nat × Append)} {path : List Nat} {start : Int}
    (hleaf : t.children = []) (hbase : t.base = some axis)
    (hrun : t.tryAppends calls = .ok (accepted, t')) (hn : t'.get? path = some n)
    (hlow : n.grouping.low = 1) (hvalid : n.validateContiguity.outcome = .ok true)
    (hchildren : n.children = first :: rest) (hstart : first.grouping.start = .ok start)
    (hpos : 1 ≤ start) (hfull : ∀ c ∈ n.children, c.grouping.low ≤ c.grouping.high) :
    ((∃ es, n.flattenedEdges = .ok es) ↔ n.HasRoom) ∧
    (∀ es, n.flattenedEdges = .ok es → es.length = 1 + (n.children.map span).sum ∧
      es.zip es.tail = (groupedBins n.children).map (interval axis)) ∧
    (∀ q ∈ groupedBins n.children, q.1.firstBase q.2 = .ok (q.1.firstBin q.2) ∧
      q.1.lastBase q.2 = .ok (q.1.lastBin q.2)) ∧
    ∀ c ∈ n.children, ∀ depth,
      binLines axis c.grouping depth = .ok (shownLines axis depth c) ∧
      ∀ o ls, o.baseOnly = false → o.ranges = true → n.lines o depth = .ok ls →
        shownLines axis (depth + 3) c <:+: ls := by
  have hbases := bases_of_validateContiguity hvalid hchildren hstart
  have hspan := span_of_validateContiguity hvalid hchildren hstart hlow hfull hpos
  have hshared := everywhere_base_of_tryAppends hleaf hrun
  rw [hbase] at hshared
  have hnode : n.Everywhere fun n => n.base = some axis := hshared.of_get? hn
  obtain ⟨hbase, hbelow⟩ := everywhere_iff.mp hnode
  have hlines : ∀ c ∈ n.children, ∀ depth,
      binLines axis c.grouping depth = .ok (shownLines axis depth c) := fun c hc depth =>
    binLines_eq_ok axis depth (hbases c hc) (Nat.le_succ_of_le (hspan c hc))
  refine ⟨known_flattenedEdges_iff hbase hchildren ⟨start, hstart⟩ fun base c hc =>
    known_upEdges base fun b hlow hhigh => (hbases c hc b hlow hhigh).2, fun es hes => ?_,
    fun q hq => ?_, fun c hc depth => ⟨hlines c hc depth, fun o ls hfull hranges hls => ?_⟩⟩
  · obtain ⟨high, htiles⟩ := tiles_of_validateContiguity hvalid hchildren hstart hlow hfull
    obtain rfl := eq_upEdges_of_flattenedEdges hbase hchildren hstart hpos hes
    refine ⟨?_, axis.zip_cuts htiles (by omega)⟩
    rw [List.length_cons, List.length_map, cuts, List.length_map, length_groupedBins, Nat.add_comm]
  · obtain ⟨c, hc, hg, hlow, hhigh⟩ := mem_groupedBins.mp hq
    rw [hg]
    exact hbases c hc q.2 hlow hhigh
  · have hcbase : c.base = some axis := (everywhere_iff.mp (hbelow c hc)).1
    obtain ⟨bins, hbins, hinfix⟩ := infix_of_lines_child hbase hc hcbase hfull hranges hls
    rw [hlines c hc] at hbins
    obtain rfl := Except.ok.inj hbins
    exact hinfix

/-- Five bins of width one, from `0` to `5`. -/
abbrev fiveAxis : Axis := ⟨Config.fiveEdges, none⟩

/-- Two single bins and a pair, of five. -/
def mixedFive : Node Axis :=
  ⟨some fiveAxis, ⟨1, 0, 1, 5, 5, Grouping.one_le_one⟩,
    [⟨some fiveAxis, ⟨1, 0, 1, 2, 5, Grouping.one_le_one⟩, []⟩,
      ⟨some fiveAxis, ⟨2, 0, 2, 2, 2, by decide⟩, []⟩]⟩

/-- From one edge of this node to the next go the intervals of its three grouped bins. -/
theorem flattenedEdges_intervals_mixed :
    (root fiveAxis).tryAppends [([], .child 1 0 1 (some 2)), ([], .child 2 0 2 (some 2))] =
      .ok ([([], .child 1 0 1 (some 2)), ([], .child 2 0 2 (some 2))], mixedFive) ∧
    mixedFive.validateContiguity.outcome = .ok true ∧
    ∃ es, mixedFive.flattenedEdges = .ok es ∧ es.length = 4 ∧
      es.zip es.tail = (groupedBins mixedFive.children).map (interval fiveAxis) := by
  have hrun : (root fiveAxis).tryAppends
      [([], .child 1 0 1 (some 2)), ([], .child 2 0 2 (some 2))] =
      .ok ([([], .child 1 0 1 (some 2)), ([], .child 2 0 2 (some 2))], mixedFive) := by rfl
  have hvalid : mixedFive.validateContiguity.outcome = .ok true := by rfl
  have hnode : mixedFive.get? [] = some mixedFive := rfl
  obtain ⟨hroom, hedges, -⟩ :=
    flattenedEdges_intervals rfl rfl hrun hnode rfl hvalid rfl rfl (by decide) (by decide)
  obtain ⟨es, hes⟩ := hroom.mpr (by decide)
  obtain ⟨hlen, hzip⟩ := hedges es hes
  exact ⟨hrun, hvalid, es, hes, hlen, hzip⟩

/-- **Intervals without edges.** A root over five bins that skips `2 ^ 62` bins backwards has room
for as many grouped bins and one more, before it has edges. Its child starts and ends with the
axis, the tree is valid, and its five intervals are those between the edges of the axis. But its
edges are too many for a list before the first one is looked at. -/
theorem flattenedEdges_too_large : ∃ t t' first : Node Axis,
    Node.make fiveAxis 1 (-2 ^ 62) 1 (some 5) = .ok t ∧
    t.tryAppends [([], .child 1 0 1 (some 5))] = .ok ([([], .child 1 0 1 (some 5))], t') ∧
    t'.grouping.low = 1 ∧ t'.validateContiguity.outcome = .ok true ∧ t'.children = [first] ∧
    first.grouping.start = .ok 1 ∧ first.grouping.low ≤ first.grouping.high ∧
    (groupedBins t'.children).map (interval fiveAxis) =
      Config.fiveEdges.zip Config.fiveEdges.tail ∧
    t'.flattenedEdges = .error .tooLarge :=
  ⟨⟨some fiveAxis, ⟨1, -2 ^ 62, 1, 5, 5 + 2 ^ 62, Grouping.one_le_one⟩, []⟩,
    ⟨some fiveAxis, ⟨1, -2 ^ 62, 1, 5, 5 + 2 ^ 62, Grouping.one_le_one⟩,
      [⟨some fiveAxis, ⟨1, 0, 1, 5, 5, Grouping.one_le_one⟩, []⟩]⟩,
    _, by rfl, by rfl, rfl, by rfl, rfl, rfl, by decide, by decide, by rfl⟩

end Node

end Binning
