import Binning.Proofs.Gap
import Binning.Proofs.Sequence
import Binning.Proofs.Usable
import Binning.Proofs.Verdicts

/-!
# What the command for edges prints

A command that succeeds has done each of its steps, and its output is known
(`Binning.CommandLine.run_edges_eq_ok`). For edges this is one list for each name of a
dimension. Two dimensions may have the same name, and then the list of the last one is
printed; but each list is that of some dimension, and each name has a list
(`Binning.CommandLine.mem_sortMembers`, `Binning.CommandLine.mem_names_sortMembers`).

So what is known about the edges of a tree is known about what is printed. If the axes of a
configuration have usable edges, a printed list has at least two entries, and it is usable
exactly if the first range of its dimension groups nothing and none of the ranges ends beyond
the axis (`Binning.CommandLine.run_edges_usable_iff`).
-/

namespace Binning

open Outcome

/-! ### The axes of a configuration -/

theorem Outcome.ofAxis_eq_ok {α : Type} {r : Except AxisError α} {a : α} :
    ofAxis r = .ok a ↔ r = .ok a := by
  cases r with
  | error e => simp [ofAxis]
  | ok b => simp [ofAxis]

/-- An axis that is built has at least two edges. -/
theorem AxisSpec.two_le_of_build {s : AxisSpec} {a : Axis} (h : s.build = .ok a) :
    2 ≤ a.edges.length := by
  cases s with
  | uniform bins low high =>
    obtain ⟨hbins, rfl⟩ := Axis.uniform_eq_ok h
    simp only [Axis.uniformEdges, List.length_append, List.length_map, List.length_range,
      List.length_singleton]
    omega
  | edges es =>
    obtain ⟨htwo, -, rfl⟩ := Axis.ofEdges_eq_ok.mp (ofAxis_eq_ok.mp h)
    exact htwo

/-- Labels leave the edges as they are. -/
theorem Axis.edges_of_withLabels {a b : Axis} {ls : List String} (h : a.withLabels ls = .ok b) :
    b.edges = a.edges := by
  obtain ⟨-, rfl⟩ := withLabels_eq_ok.mp h
  rfl

/-- The axis of a dimension has at least two edges. -/
theorem Dimension.two_le_of_buildAxis {d : Dimension} {a : Axis} (h : d.buildAxis = .ok a) :
    2 ≤ a.edges.length := by
  obtain ⟨a', ha', h⟩ := bind_eq_ok.mp h
  have htwo := AxisSpec.two_le_of_build ha'
  split at h
  · rwa [Axis.edges_of_withLabels (ofAxis_eq_ok.mp h)]
  · obtain rfl := pure_eq_ok.mp h
    exact htwo

/-- **The ranges of a dimension keep to its axis**: the first one groups nothing, and in the
tree none of them ends beyond the axis. -/
def Dimension.KeepsTo (d : Dimension) (a : Axis) (t : Node Axis) : Prop :=
  (∃ first rest, d.ranges = first :: rest ∧ first.size = 1) ∧
    ∀ child ∈ t.children, ∃ stop, child.grouping.stop = .ok stop ∧ stop ≤ a.binCount

namespace Config

/-- The name at an index is that of the dimension there. -/
theorem getElem?_namesFrom (index : Nat) (ds : List Dimension) (i : Nat) :
    (namesFrom index ds)[i]? = ds[i]?.map fun d => d.displayName (index + i) := by
  induction ds generalizing index i with
  | nil => simp [namesFrom]
  | cons d ds ih =>
    cases i with
    | zero => rfl
    | succ i =>
      have hnext : index + 1 + i = index + (i + 1) := by omega
      rw [namesFrom, List.getElem?_cons_succ, List.getElem?_cons_succ, ih, hnext]

theorem length_namesFrom (index : Nat) (ds : List Dimension) :
    (namesFrom index ds).length = ds.length := by
  induction ds generalizing index with
  | nil => rfl
  | cons d ds ih => rw [namesFrom, List.length_cons, List.length_cons, ih]

theorem length_names (c : Config) : c.names.length = c.dimensions.length :=
  length_namesFrom 0 c.dimensions

/-- The axes that are built have at least two edges. -/
theorem two_le_of_buildAxes {c : Config} {axes : List Axis} (h : c.buildAxes = .ok axes) {i : Nat}
    {a : Axis} (ha : axes[i]? = some a) : 2 ≤ a.edges.length := by
  obtain ⟨d, -, hd⟩ := exists_getElem?_of_forall₂ (mapM_eq_ok.mp h) ha
  exact Dimension.two_le_of_buildAxis hd

/-- There is a list of edges for each dimension. -/
theorem length_of_flattenedEdges {c : Config} {axes : List Axis} {cuts : CutSet Axis}
    (h : (c.buildCutSet axes).outcome = .ok cuts) {edges : List (List Double)}
    (hedges : cuts.flattenedEdges = .ok edges) : edges.length = c.dimensions.length := by
  obtain ⟨hlen, hbuilt⟩ := forall₂_of_buildCutSet h
  rw [← (mapM_eq_ok.mp hedges).length_eq, ← hbuilt.length_eq, List.length_zip, hlen, Nat.min_self]

/-- **The edges of a dimension** in a cut set, if its tree is contiguous: there are at least
two, and they are usable exactly if the ranges keep to the axis. -/
theorem usable_of_buildCutSet {c : Config} {axes : List Axis} {cuts : CutSet Axis}
    (h : (c.buildCutSet axes).outcome = .ok cuts) {i : Nat} {d : Dimension} {a : Axis}
    {t : Node Axis} (hd : c.dimensions[i]? = some d) (ha : axes[i]? = some a)
    (ht : cuts.trees[i]? = some t) (hvalid : t.validateContiguity.outcome = .ok true)
    (huse : Usable a.edges) (hroom : a.edges.length ≤ Capacity.maxEntries) {es : List Double}
    (hes : t.flattenedEdges = .ok es) :
    2 ≤ es.length ∧ (Usable es ↔ d.KeepsTo a t) := by
  obtain ⟨a', ha', hrun⟩ := exists_axis_of_buildCutSet h hd ht
  obtain rfl : a = a' := Option.some.inj (ha.symm.trans ha')
  obtain ⟨hranged, hsizes⟩ := Node.ranged_of_tryRanges rfl hrun
  have hne := (of_decide_eq_true
    ((Node.validateContiguity_gives hranged.leaf).eq_of_ok hvalid).symm).1
  obtain ⟨child, children, hchildren⟩ := List.exists_cons_of_ne_nil hne
  -- The children have the sizes of the ranges, and the first one that of the first range.
  have hfirst : child.grouping.size = 1 ↔
      ∃ first rest, d.ranges = first :: rest ∧ first.size = 1 := by
    rw [Node.sizes, hchildren, List.map_cons] at hsizes
    obtain ⟨first, rest, hranges, hsize, -⟩ := List.map_eq_cons_iff.mp hsizes.symm
    rw [← hsize, hranges]
    constructor
    · exact fun hone => ⟨first, rest, rfl, hone⟩
    · rintro ⟨first', rest', heq, hone⟩
      rwa [(List.cons.inj heq).1]
  have hends : (∀ child ∈ t.children, child.grouping.upper ≤ a.binCount) ↔
      ∀ child ∈ t.children, ∃ stop, child.grouping.stop = .ok stop ∧ stop ≤ a.binCount := by
    refine forall₂_congr fun child hchild => ⟨fun hle => ⟨_, hranged.stop_eq child hchild, hle⟩, ?_⟩
    rintro ⟨stop, hstop, hle⟩
    rwa [← child.grouping.stop_gives.eq_of_ok hstop]
  rw [Dimension.KeepsTo, ← hfirst, ← hends]
  exact Node.usable_iff huse hroom hrun hchildren hes

end Config

namespace CommandLine

/-! ### Named members -/

section Members

variable {α β : Type}

theorem insertMember_map (f : α → β) (name : String) (a : α) (ms : List (String × α)) :
    insertMember name (f a) (ms.map fun m => (m.1, f m.2)) =
      (insertMember name a ms).map fun m => (m.1, f m.2) := by
  induction ms with
  | nil => rfl
  | cons m ms ih =>
    rw [List.map_cons, insertMember, insertMember]
    split
    · rfl
    · split
      · rfl
      · rw [ih, List.map_cons]

theorem mem_insertMember {name : String} {a : α} {ms : List (String × α)} {m : String × α}
    (h : m ∈ insertMember name a ms) : m = (name, a) ∨ m ∈ ms := by
  induction ms with
  | nil => simpa [insertMember] using h
  | cons m' ms ih =>
    rw [insertMember] at h
    split at h
    · simpa using h
    · split at h
      · rcases List.mem_cons.mp h with h | h
        · exact Or.inl h
        · exact Or.inr (List.mem_cons_of_mem _ h)
      · rcases List.mem_cons.mp h with rfl | h
        · exact Or.inr List.mem_cons_self
        · exact (ih h).imp_right (List.mem_cons_of_mem _)

/-- A member that is put in its place adds its name to the names, if it is not there. -/
theorem mem_names_insertMember {name n : String} {a : α} {ms : List (String × α)} :
    n ∈ (insertMember name a ms).map Prod.fst ↔ n = name ∨ n ∈ ms.map Prod.fst := by
  induction ms with
  | nil => simp [insertMember]
  | cons m ms ih =>
    rw [insertMember]
    split
    · simp
    · split
      · next heq => simp [heq]
      · rw [List.map_cons, List.map_cons, List.mem_cons, List.mem_cons, ih]
        exact or_left_comm

/-- The last member is put in its place among the others. -/
theorem sortMembers_concat (ms : List (String × α)) (m : String × α) :
    sortMembers (ms ++ [m]) = insertMember m.1 m.2 (sortMembers ms) := by
  rw [sortMembers, List.foldl_append]
  rfl

/-- Members are sorted by their names, whatever they hold. -/
theorem sortMembers_map (f : α → β) (ms : List (String × α)) :
    sortMembers (ms.map fun m => (m.1, f m.2)) = (sortMembers ms).map fun m => (m.1, f m.2) := by
  induction ms using List.reverseRecOn with
  | nil => rfl
  | append_singleton ms m ih =>
    rw [List.map_append, List.map_singleton, sortMembers_concat, sortMembers_concat, ih]
    exact insertMember_map f m.1 m.2 (sortMembers ms)

/-- Sorting adds no member. -/
theorem mem_sortMembers {ms : List (String × α)} {m : String × α} (h : m ∈ sortMembers ms) :
    m ∈ ms := by
  induction ms using List.reverseRecOn with
  | nil => exact h
  | append_singleton ms m' ih =>
    rw [sortMembers_concat] at h
    rcases mem_insertMember h with rfl | h
    · exact List.mem_append_right _ (List.mem_singleton_self m')
    · exact List.mem_append_left _ (ih h)

/-- **Sorting keeps the names.** -/
theorem mem_names_sortMembers {ms : List (String × α)} {n : String} :
    n ∈ (sortMembers ms).map Prod.fst ↔ n ∈ ms.map Prod.fst := by
  induction ms using List.reverseRecOn with
  | nil => exact Iff.rfl
  | append_singleton ms m ih =>
    rw [sortMembers_concat, mem_names_insertMember, ih, List.map_append, List.mem_append,
      List.map_singleton, List.mem_singleton]
    exact or_comm

end Members

/-! ### The command for edges -/

/-- A configuration is loaded if its text can be read and parsed. -/
theorem load_eq_ok {read : String → Option String} {path : String} {c : Config} :
    load read path = .ok c ↔ ∃ text, read path = some text ∧ Config.ofText text = .ok c := by
  rw [load]
  cases read path with
  | none => simp
  | some text =>
    cases hc : Config.ofText text with
    | error e => simp [hc]
    | ok c' => simp [hc]

/-- The cut set of a configuration is built over its own axes. -/
theorem build_eq_ok {c : Config} {cuts : CutSet Axis} :
    (build c).outcome = .ok cuts ↔
      ∃ axes, c.buildAxes = .ok axes ∧ (c.buildCutSet axes).outcome = .ok cuts := by
  rw [build, Run.outcome_bind_eq_ok]
  refine exists_congr fun axes => and_congr_right fun _ => ?_
  rw [Run.outcome_bind_eq_ok]
  constructor
  · rintro ⟨cuts', hcuts, hlast⟩
    obtain ⟨_, -, hpure⟩ := Run.outcome_bind_eq_ok.mp hlast
    obtain rfl : cuts' = cuts := Except.ok.inj hpure
    exact hcuts
  · exact fun hcuts => ⟨cuts, hcuts, rfl⟩

/-- A command that has done its work was not refused anything. -/
theorem catchRefusal_eq_ok {r : Run Report} {report : Report} {valid : Bool}
    (hdone : report.ending = .done valid) :
    (catchRefusal r).outcome = .ok report ↔ r.outcome = .ok report := by
  unfold catchRefusal
  split
  · next e he =>
    refine iff_of_false (fun h => ?_) (by simp [he])
    obtain rfl := Except.ok.inj h
    cases hdone
  · exact Iff.rfl

/-- **The command for edges succeeds** exactly if the file can be read and the configuration
parsed, its axes and its cut set built, validated and flattened. It prints the edges. -/
theorem run_edges_eq_ok {read : String → Option String} {path : String} {report : Report}
    (hdone : report.ending = .done true) :
    (run read (.edges path)).outcome = .ok report ↔
      ∃ text c axes cuts edges, read path = some text ∧ Config.ofText text = .ok c ∧
        c.buildAxes = .ok axes ∧ (c.buildCutSet axes).outcome = .ok cuts ∧
        cuts.validate.outcome = .ok true ∧ cuts.flattenedEdges = .ok edges ∧
        report.output = edgesText c.names edges := by
  rw [run, runOn]
  cases hload : load read path with
  | error chain =>
    refine iff_of_false (fun h => ?_) ?_
    · obtain rfl := Except.ok.inj h
      cases hdone
    · rintro ⟨text, c, axes, cuts, edges, hread, hc, -⟩
      rw [load_eq_ok.mpr ⟨text, hread, hc⟩] at hload
      cases hload
  | ok c =>
    dsimp only
    rw [catchRefusal_eq_ok hdone]
    constructor
    · intro h
      obtain ⟨text, hread, hc⟩ := load_eq_ok.mp hload
      obtain ⟨cuts, hbuild, hwork⟩ := Run.outcome_bind_eq_ok.mp h
      obtain ⟨axes, haxes, hcuts⟩ := build_eq_ok.mp hbuild
      obtain ⟨valid, hvalid, hwrite⟩ := Run.outcome_bind_eq_ok.mp hwork
      cases valid with
      | false =>
        obtain rfl := Except.ok.inj hwrite
        cases hdone
      | true =>
        obtain ⟨edges, hedges, hreport⟩ := Run.outcome_bind_eq_ok.mp hwrite
        obtain rfl := Except.ok.inj hreport
        exact ⟨text, c, axes, cuts, edges, hread, hc, haxes, hcuts, hvalid, hedges, rfl⟩
    · rintro ⟨text, c', axes, cuts, edges, hread, hc, haxes, hcuts, hvalid, hedges, hout⟩
      obtain rfl : c = c' := Except.ok.inj (hload.symm.trans (load_eq_ok.mpr ⟨text, hread, hc⟩))
      have hreport : report = ⟨edgesText c.names edges, .done true⟩ := by
        rw [← hout, ← hdone]
      refine Run.outcome_bind_eq_ok.mpr ⟨cuts, build_eq_ok.mpr ⟨axes, haxes, hcuts⟩, ?_⟩
      refine Run.outcome_bind_eq_ok.mpr ⟨true, hvalid, ?_⟩
      exact Run.outcome_bind_eq_ok.mpr ⟨edges, hedges, by rw [hreport]; rfl⟩

/-- **What the command for edges prints.** Let the axes of a configuration have finite and
strictly ascending edges, which have room in a list. If the command succeeds, it prints a
list of edges for the name of every dimension, and for no other name. Each list belongs to a
dimension and has at least two entries. It is usable, that is, all finite and strictly
ascending, exactly if the first range of the dimension groups nothing and none of its ranges
ends beyond the axis. -/
theorem run_edges_usable_iff {read : String → Option String} {path text : String} {c : Config}
    {axes : List Axis} {report : Report} (hread : read path = some text)
    (htext : Config.ofText text = .ok c) (haxes : c.buildAxes = .ok axes)
    (hfinite : ∀ a ∈ axes, ∀ e ∈ a.edges, e.isFinite = true)
    (hasc : ∀ a ∈ axes, a.edges.Pairwise (· < ·))
    (hroom : ∀ a ∈ axes, a.edges.length ≤ Capacity.maxEntries)
    (h : (run read (.edges path)).outcome = .ok report) (hdone : report.ending = .done true) :
    ∃ (cuts : CutSet Axis) (printed : List (String × List Double)),
      (c.buildCutSet axes).outcome = .ok cuts ∧
      report.output =
        (Json.record (printed.map fun m => (m.1, Json.list Json.double m.2))).pretty ++ "\n" ∧
      (∀ name, name ∈ printed.map Prod.fst ↔ name ∈ c.names) ∧
      ∀ (name : String) (es : List Double), (name, es) ∈ printed → 2 ≤ es.length ∧
        ∃ (i : Nat) (d : Dimension) (a : Axis) (t : Node Axis),
          c.dimensions[i]? = some d ∧ axes[i]? = some a ∧ cuts.trees[i]? = some t ∧
          name = d.displayName i ∧ t.flattenedEdges = .ok es ∧ (Usable es ↔ d.KeepsTo a t) := by
  obtain ⟨text', c', axes', cuts, edges, hread', htext', haxes', hcuts, hvalid, hedges, hout⟩ :=
    (run_edges_eq_ok hdone).mp h
  obtain rfl : text = text' := Option.some.inj (hread.symm.trans hread')
  obtain rfl : c = c' := Except.ok.inj (htext.symm.trans htext')
  obtain rfl : axes = axes' := Except.ok.inj (haxes.symm.trans haxes')
  have htrees := mapM_eq_ok.mp hedges
  have hzip : c.names.zip (edges.map (Json.list Json.double)) =
      (c.names.zip edges).map fun m => (m.1, Json.list Json.double m.2) := by
    rw [List.zip_map_right]
    rfl
  -- There are as many lists as there are names.
  have hnames : (c.names.zip edges).map Prod.fst = c.names := by
    refine List.map_fst_zip ?_
    rw [Config.length_of_flattenedEdges hcuts hedges, Config.length_names]
  refine ⟨cuts, sortMembers (c.names.zip edges), hcuts, ?_, fun name => ?_, fun name es hmem => ?_⟩
  · rw [hout, edgesText, hzip, sortMembers_map]
  · rw [mem_names_sortMembers, hnames]
  · obtain ⟨i, hi⟩ := List.mem_iff_getElem?.mp (mem_sortMembers hmem)
    obtain ⟨hname, hes⟩ := List.getElem?_zip_eq_some.mp hi
    rw [Config.names, Config.getElem?_namesFrom, Nat.zero_add] at hname
    obtain ⟨d, hd, rfl⟩ := Option.map_eq_some_iff.mp hname
    obtain ⟨t, ht, hflat⟩ := exists_getElem?_of_forall₂ htrees hes
    obtain ⟨a, ha, -⟩ := Config.exists_axis_of_buildCutSet hcuts hd ht
    have hmem := List.mem_of_getElem? ha
    have hcontiguous :=
      CutSet.validateContiguity_of_validate hvalid t (List.mem_of_getElem? ht)
    have huse : Usable a.edges := ⟨Config.two_le_of_buildAxes haxes ha, hfinite a hmem, hasc a hmem⟩
    obtain ⟨htwo, hiff⟩ := Config.usable_of_buildCutSet hcuts hd ha ht hcontiguous huse
      (hroom a hmem) hflat
    exact ⟨htwo, i, d, a, t, hd, ha, ht, rfl, hflat, hiff⟩

/-! ### Five bins -/

/-- A file with the configuration of a single dimension of five bins, with ranges. -/
def fiveBinsText (ranges : String) : String :=
  "\x7b\"dimensions\":[\x7b\"axis\":\x7b\"kind\":\"edges\",\"edges\":[0.0,1.0,2.0,3.0,4.0,5.0]\x7d," ++
    "\"ranges\":[" ++ ranges ++ "]\x7d]\x7d"

/-- Two single bins and then a group of two. -/
def unitText : String :=
  fiveBinsText "\x7b\"group_size\":1,\"bins\":2\x7d,\x7b\"group_size\":2,\"bins\":1\x7d"

/-- Groups of two up to the end. -/
def pairsText : String := fiveBinsText "\x7b\"group_size\":2\x7d"

theorem usable_fiveEdges : Usable Config.fiveEdges := by decide

/-- Two single bins and then a group of two are printed with usable edges. -/
theorem run_edges_unit : ∃ (report : Report) (printed : List (String × List Double)),
    (run (fun _ => some unitText) (.edges "five.json")).outcome = .ok report ∧
    report.ending = .done true ∧
    report.output =
      (Json.record (printed.map fun m => (m.1, Json.list Json.double m.2))).pretty ++ "\n" ∧
    "dim0" ∈ printed.map Prod.fst ∧ ∀ name es, (name, es) ∈ printed → Usable es := by
  have htext : Config.ofText unitText = .ok (Config.fiveBins [⟨1, some 2⟩, ⟨2, some 1⟩]) := by
    decide +kernel
  have haxes : (Config.fiveBins [⟨1, some 2⟩, ⟨2, some 1⟩]).buildAxes =
      .ok [⟨Config.fiveEdges, none⟩] := by rfl
  have hcuts : ((Config.fiveBins [⟨1, some 2⟩, ⟨2, some 1⟩]).buildCutSet
        [⟨Config.fiveEdges, none⟩]).outcome =
      .ok ⟨[⟨some ⟨Config.fiveEdges, none⟩, ⟨1, 0, 1, 6, 5, by decide⟩,
        [⟨some ⟨Config.fiveEdges, none⟩, ⟨1, 0, 1, 2, 5, by decide⟩, []⟩,
          ⟨some ⟨Config.fiveEdges, none⟩, ⟨2, 0, 2, 2, 2, by decide⟩, []⟩]⟩]⟩ := by rfl
  have hdone : Report.ending ⟨edgesText ["dim0"]
      [[⟨0⟩, ⟨0x3FF0000000000000⟩, ⟨0x4000000000000000⟩, ⟨0x4010000000000000⟩]], .done true⟩ =
        .done true := rfl
  have hrun : (run (fun _ => some unitText) (.edges "five.json")).outcome = .ok _ :=
    (run_edges_eq_ok hdone).mpr ⟨_, _, _, _, _, rfl, htext, haxes, hcuts, by rfl, by rfl, rfl⟩
  have hroom : Config.fiveEdges.length ≤ Capacity.maxEntries := by decide
  obtain ⟨cuts, printed, hcuts', hout, hnames, hlists⟩ :=
    @run_edges_usable_iff (fun _ => some unitText) "five.json" unitText _ _ _ rfl htext haxes
      (List.forall_mem_singleton.mpr usable_fiveEdges.2.1)
      (List.forall_mem_singleton.mpr usable_fiveEdges.2.2) (List.forall_mem_singleton.mpr hroom)
      hrun hdone
  obtain rfl := Except.ok.inj (hcuts.symm.trans hcuts')
  refine ⟨_, printed, hrun, hdone, hout, (hnames "dim0").mpr (by decide), fun name es hmem => ?_⟩
  obtain ⟨-, i, d, a, t, hd, ha, ht, -, -, husable⟩ := hlists name es hmem
  -- There is a single dimension, and its ranges end at the second and the fourth bin.
  cases i with
  | succ i => simp [Config.fiveBins] at hd
  | zero =>
    obtain rfl := Option.some.inj hd
    obtain rfl := Option.some.inj ha
    obtain rfl := Option.some.inj ht
    refine husable.mpr ⟨⟨_, _, rfl, rfl⟩, fun child hchild => ?_⟩
    rcases List.mem_cons.mp hchild with rfl | hchild
    · exact ⟨2, by rfl, by decide⟩
    · obtain rfl := List.mem_singleton.mp hchild
      exact ⟨4, by rfl, by decide⟩

/-- **A list that is no binning.** The axis has usable edges and the command succeeds, but the
first number that it prints is infinite, and so there is none. -/
theorem run_edges_pairs : ∃ report : Report,
    (Config.fiveBins [⟨2, none⟩]).buildAxes = .ok [⟨Config.fiveEdges, none⟩] ∧
    Usable Config.fiveEdges ∧
    Config.ofText pairsText = .ok (Config.fiveBins [⟨2, none⟩]) ∧
    (run (fun _ => some pairsText) (.edges "five.json")).outcome = .ok report ∧
    report.ending = .done true ∧
    report.output = (Json.record [("dim0", Json.list Json.double [-Double.infinity,
      ⟨0x3FF0000000000000⟩, ⟨0x4008000000000000⟩, ⟨0x4014000000000000⟩])]).pretty ++ "\n" ∧
    Json.double (-Double.infinity) = .null := by
  have htext : Config.ofText pairsText = .ok (Config.fiveBins [⟨2, none⟩]) := by decide +kernel
  have haxes : (Config.fiveBins [⟨2, none⟩]).buildAxes = .ok [⟨Config.fiveEdges, none⟩] := by rfl
  have hcuts : ((Config.fiveBins [⟨2, none⟩]).buildCutSet [⟨Config.fiveEdges, none⟩]).outcome =
      .ok ⟨[⟨some ⟨Config.fiveEdges, none⟩, ⟨1, 1, 0, 5, 5, by decide⟩,
        [⟨some ⟨Config.fiveEdges, none⟩, ⟨2, 1, 0, 2, 2, by decide⟩, []⟩]⟩]⟩ := by rfl
  have hdone : Report.ending ⟨edgesText ["dim0"] [[-Double.infinity, ⟨0x3FF0000000000000⟩,
      ⟨0x4008000000000000⟩, ⟨0x4014000000000000⟩]], .done true⟩ = .done true := rfl
  have hrun : (run (fun _ => some pairsText) (.edges "five.json")).outcome = .ok _ :=
    (run_edges_eq_ok hdone).mpr ⟨_, _, _, _, _, rfl, htext, haxes, hcuts, by rfl, by rfl, rfl⟩
  exact ⟨_, haxes, usable_fiveEdges, htext, hrun, hdone, rfl, rfl⟩

end CommandLine

end Binning
