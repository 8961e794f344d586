import Binning.Proofs.Flattening
import Binning.Proofs.Printing
import Binning.Proofs.Room
import Binning.Proofs.RoundTrip

/-!
# Three commands on one configuration

The commands load a configuration and build its cut set, and they differ only in what they do with
it. So they end alike if there is no cut set. If there is one, then none of them has anything to
refuse: to describe a tree, to validate it and to flatten it are calculations, and these can
overflow or run out of room, but hand back no error (`Binning.Outcome.Unrefused`).

The commands for edges and for verdicts validate all trees before anything else, each in its own
way, and so an overflow there ends both. Otherwise both know the same verdicts
(`Binning.CommandLine.Endings`). If all are good, flattening does not overflow, as everything that
it calculates is bounded by what has been calculated to build the trees.

All of this is `Binning.CommandLine.run_agree`. There is one thing in it that should not be there:
a range of huge groups may take back more bins than there are, and the next range begins far below
the axis and is contiguous all the same. Its edges are more than a list can hold, and the command
for edges ends without them (`Binning.CommandLine.run_edges_backwards`).
-/

namespace Binning

open Outcome

/-! ### Computations that refuse nothing -/

/-- **Nothing is refused**: no error is handed back. -/
def Outcome.Unrefused {α : Type} (o : Outcome α) : Prop := ∀ cause, o ≠ .error (.refused cause)

namespace Outcome

variable {α β : Type}

/-- A calculation can only overflow or run out of room. -/
theorem KnownUnless.unrefused {full : Prop} {o : Outcome α} (h : KnownUnless full o) :
    Unrefused o := by
  rcases h with ⟨a, rfl⟩ | rfl | ⟨rfl, -⟩ <;> exact nofun

theorem Gives.eq_overflow {o : Outcome α} {a : α} {e : Failure} (h : Gives o a)
    (he : o = .error e) : e = .overflow := by
  rcases h with h | h
  · rw [h] at he
    cases he
  · rw [h] at he
    exact (Except.error.inj he).symm

end Outcome

namespace CommandLine

/-! ### The way to a cut set -/

/-- A run in which nothing is refused is its own. -/
theorem catchRefusal_of_unrefused {r : Run Report} (h : Unrefused r.outcome) :
    catchRefusal r = r := by
  unfold catchRefusal
  split
  · next cause hcause => exact absurd hcause (h cause)
  · rfl

section RunOn

variable {read : String → Option String} {path : String} {c : Config}
  (work : Config → CutSet Axis → Run Report)

/-- A configuration that cannot be loaded ends the command. -/
theorem runOn_of_unloaded {chain : List Cause} (h : load read path = .error chain) :
    runOn read path work = ⟨[], .ok (Report.failure chain)⟩ := by
  rw [runOn, h]
  rfl

/-- A command has written nothing if its work on a cut set has not. -/
theorem output_of_runOn {report : Report}
    (hwork : ∀ c cuts, (work c cuts).outcome = .ok report → report.output = "")
    (h : (runOn read path work).outcome = .ok report) : report.output = "" := by
  cases hload : load read path with
  | error chain =>
    rw [runOn_of_unloaded work hload] at h
    obtain rfl := Except.ok.inj h
    rfl
  | ok c =>
    rw [runOn, hload] at h
    dsimp only at h
    unfold catchRefusal at h
    split at h
    · obtain rfl := Except.ok.inj h
      rfl
    · obtain ⟨cuts, -, hcuts⟩ := Run.outcome_bind_eq_ok.mp h
      exact hwork c cuts hcuts

variable (hload : load read path = .ok c)

include hload

/-- An error of building is caught. -/
theorem runOn_of_refused {cause : BinningError} (h : (build c).outcome = .error (.refused cause)) :
    runOn read path work = ⟨(build c).events, .ok (Report.failure [.error cause])⟩ := by
  rw [runOn, hload]
  dsimp only
  rw [Run.bind_of_error h]
  rfl

/-- Any other failure of building is the failure of the command. -/
theorem runOn_of_failed {e : Failure} (h : (build c).outcome = .error e)
    (he : ∀ cause, e ≠ .refused cause) :
    runOn read path work = ⟨(build c).events, .error e⟩ := by
  rw [runOn, hload]
  dsimp only
  rw [Run.bind_of_error h]
  exact catchRefusal_of_unrefused fun cause heq => he cause (Except.error.inj heq)

/-- A command ends with its work on the cut set, if nothing is refused there. -/
theorem outcome_runOn_of_built {cuts : CutSet Axis} (h : (build c).outcome = .ok cuts)
    {o : Outcome Report} (hwork : (work c cuts).outcome = o) (ho : Unrefused o) :
    (runOn read path work).outcome = o := by
  have hbound : (build c >>= work c).outcome = o := by
    rw [Run.outcome_bind, h]
    exact hwork
  rw [runOn, hload]
  dsimp only
  rw [catchRefusal_of_unrefused (hbound ▸ ho), hbound]

end RunOn

/-! ### What the commands do with a cut set -/

/-- There is a name for each tree. -/
theorem length_names_of_build {c : Config} {cuts : CutSet Axis}
    (h : (build c).outcome = .ok cuts) : c.names.length = cuts.trees.length := by
  obtain ⟨axes, -, hcuts⟩ := build_eq_ok.mp h
  obtain ⟨hlen, hbuilt⟩ := Config.forall₂_of_buildCutSet hcuts
  rw [c.length_names, ← hbuilt.length_eq, List.length_zip, hlen, Nat.min_self]

section Work

variable {c : Config} {cuts : CutSet Axis} {valids : List Bool}

/-- The command for verdicts writes them down. -/
theorem outcome_writeVerdicts (hlen : c.names.length = cuts.trees.length) :
    (writeVerdicts c cuts).outcome =
      (cuts.trees.mapM fun t : Node Axis => t.validateContiguity.outcome).map fun valids =>
        ⟨verdictsText c.names valids, .done (valids.all id)⟩ := by
  rw [writeVerdicts, Run.outcome_bind, outcome_verdicts hlen]
  cases cuts.trees.mapM fun t : Node Axis => t.validateContiguity.outcome <;> rfl

/-- The command for edges fails as the validation does. -/
theorem outcome_writeEdges_of_error {e : Failure}
    (h : (cuts.trees.mapM fun t : Node Axis => t.validateContiguity.outcome) = .error e) :
    (writeEdges c cuts).outcome = .error e := by
  rw [writeEdges, Run.outcome_bind, CutSet.validate, CutSet.outcome_validateFrom, h]
  rfl

/-- The command for edges needs good verdicts only, and flattens the trees then. -/
theorem outcome_writeEdges_of_ok
    (h : (cuts.trees.mapM fun t : Node Axis => t.validateContiguity.outcome) = .ok valids) :
    (writeEdges c cuts).outcome =
      if valids.all id then
        cuts.flattenedEdges.map fun edges => ⟨edgesText c.names edges, .done true⟩
      else .ok (Report.failure [.context "Binning configuration does not tile its axes"]) := by
  rw [writeEdges, Run.outcome_bind, CutSet.validate, CutSet.outcome_validateFrom, h]
  change (if valids.all id = true then _ else _ : Run Report).outcome = _
  split
  · rw [Run.outcome_bind]
    rfl
  · rfl

end Work

/-- The axes of a configuration have room in lists. -/
def HasRoom (c : Config) : Prop :=
  ∀ axes, c.buildAxes = .ok axes → ∀ a ∈ axes, a.edges.length ≤ Capacity.maxEntries

/-- **How the commands for edges and for verdicts end** on a cut set, both at once. -/
inductive Endings (c : Config) (cuts : CutSet Axis) (edges verdicts : Outcome Report) : Prop where
  /-- The validation of a tree overflows, and so do both commands. -/
  | overflow (t : Node Axis) (ht : t ∈ cuts.trees)
      (hvalid : t.validateContiguity.outcome = .error .overflow)
      (hedges : edges = .error .overflow) (hverdicts : verdicts = .error .overflow)
  /-- Some tree is not contiguous. There are verdicts, but no edges. -/
  | untiled (valids : List Bool)
      (hvalids : List.Forall₂ (fun t valid => t.validateContiguity.outcome = .ok valid)
        cuts.trees valids)
      (hall : valids.all id = false)
      (hedges : edges =
        .ok (Report.failure [.context "Binning configuration does not tile its axes"]))
      (hverdicts : verdicts = .ok ⟨verdictsText c.names valids, .done false⟩)
  /-- All trees are contiguous. There are verdicts, and there are edges exactly if those of no tree
  are more than a list can hold. -/
  | tiled (valids : List Bool)
      (hvalids : List.Forall₂ (fun t valid => t.validateContiguity.outcome = .ok valid)
        cuts.trees valids)
      (hall : valids.all id = true)
      (hedges : HasRoom c →
        (∀ t ∈ cuts.trees, 1 + (Node.groupedBins t.children).length ≤ Capacity.maxEntries) ∧
            (∃ lists, List.Forall₂ (fun t es => t.flattenedEdges = .ok es) cuts.trees lists ∧
              edges = .ok ⟨edgesText c.names lists, .done true⟩) ∨
          (∃ t ∈ cuts.trees, Capacity.maxEntries < 1 + (Node.groupedBins t.children).length) ∧
            edges = .error .tooLarge)
      (hverdicts : verdicts = .ok ⟨verdictsText c.names valids, .done true⟩)

section Endings

variable {read : String → Option String} {path : String} {c : Config} {cuts : CutSet Axis}
  (hload : load read path = .ok c) (hbuild : (build c).outcome = .ok cuts)

include hload hbuild

/-- **The commands for edges and for verdicts end together.** -/
theorem endings_of_built :
    Endings c cuts (run read (.edges path)).outcome (run read (.validate path)).outcome := by
  obtain ⟨text, -, htext⟩ := load_eq_ok.mp hload
  obtain ⟨axes, haxes, hcuts⟩ := build_eq_ok.mp hbuild
  have hlegal := Config.ensures.readText htext
  have hverdicts := outcome_writeVerdicts (length_names_of_build hbuild)
  cases hmap : cuts.trees.mapM fun t : Node Axis => t.validateContiguity.outcome with
  | error e =>
    obtain ⟨i, t, hi, he, -⟩ := mapM_eq_error.mp hmap
    have ht := List.mem_of_getElem? hi
    -- The children of a tree have no children, so that a fault among them can be described.
    obtain ⟨d, -, axis, -, hrun⟩ := Config.exists_of_mem_trees hcuts ht
    have hleaf := (Node.ranged_of_tryRanges rfl hrun).1.leaf
    obtain rfl := (Node.validateContiguity_gives hleaf).eq_overflow he
    rw [hmap] at hverdicts
    exact .overflow t ht he
      (outcome_runOn_of_built writeEdges hload hbuild (outcome_writeEdges_of_error hmap) nofun)
      (outcome_runOn_of_built writeVerdicts hload hbuild hverdicts nofun)
  | ok valids =>
    have hvalids := mapM_eq_ok.mp hmap
    have hedges := outcome_writeEdges_of_ok (c := c) hmap
    rw [hmap] at hverdicts
    have hrun : (run read (.validate path)).outcome =
        .ok ⟨verdictsText c.names valids, .done (valids.all id)⟩ :=
      outcome_runOn_of_built writeVerdicts hload hbuild hverdicts nofun
    cases hall : valids.all id with
    | false =>
      rw [hall] at hedges hrun
      exact .untiled valids hvalids hall
        (outcome_runOn_of_built writeEdges hload hbuild hedges nofun) hrun
    | true =>
      rw [hall, if_pos rfl] at hedges
      rw [hall] at hrun
      refine .tiled valids hvalids hall (fun hroom => ?_) hrun
      have hflat := Config.flattens_of_buildCutSet hcuts
        (fun d hd r hr => ((hlegal d hd).ranges r hr).1.2) (hroom axes haxes)
      rcases CutSet.known_flattenedEdges hflat with ⟨lists, hlists⟩ | ⟨hlarge, hcount⟩
      · rw [hlists] at hedges
        have hforall := mapM_eq_ok.mp hlists
        exact Or.inl ⟨Config.room_of_flattenedEdges hcuts hforall, lists, hforall,
          outcome_runOn_of_built writeEdges hload hbuild hedges nofun⟩
      · rw [hlarge] at hedges
        exact Or.inr ⟨hcount, outcome_runOn_of_built writeEdges hload hbuild hedges nofun⟩

/-- The command for a description writes it, if there is one. -/
theorem outcome_run_describe {flags : String} {o : DescribeOptions}
    (hflags : DescribeOptions.ofFlags flags = .ok o) :
    (run read (.describe path flags)).outcome =
      (cuts.describe o).map fun text => ⟨text, .done true⟩ := by
  have hwork : (writeDescription o cuts).outcome =
      (cuts.describe o).map fun text => ⟨text, .done true⟩ := by
    rw [writeDescription, Run.outcome_bind]
    rfl
  have hunrefused : Unrefused ((cuts.describe o).map fun text => (⟨text, .done true⟩ : Report)) :=
    ((cuts.knownUnless_describe o).bind fun text => knownUnless_pure _).unrefused
  rw [run, hflags]
  exact outcome_runOn_of_built (fun _ => writeDescription o) hload hbuild hwork hunrefused

end Endings

/-! ### Failures -/

/-- **A command that fails has written nothing.** -/
theorem output_of_failed {read : String → Option String} {command : Command} {report : Report}
    {chain : List Cause} (h : (run read command).outcome = .ok report)
    (hfailed : report.ending = .failed chain) : report.output = "" := by
  cases command with
  | edges path =>
    refine output_of_runOn writeEdges (fun c cuts hwork => ?_) h
    obtain ⟨valid, -, hwrite⟩ := Run.outcome_bind_eq_ok.mp hwork
    cases valid with
    | false =>
      obtain rfl := Except.ok.inj hwrite
      rfl
    | true =>
      obtain ⟨edges, -, hreport⟩ := Run.outcome_bind_eq_ok.mp hwrite
      obtain rfl := Except.ok.inj hreport
      cases hfailed
  | describe path flags =>
    rw [run] at h
    split at h
    · obtain rfl := Except.ok.inj h
      rfl
    · refine output_of_runOn _ (fun c cuts hwork => ?_) h
      obtain ⟨text, -, hreport⟩ := Run.outcome_bind_eq_ok.mp hwork
      obtain rfl := Except.ok.inj hreport
      cases hfailed
  | validate path =>
    refine output_of_runOn writeVerdicts (fun c cuts hwork => ?_) h
    obtain ⟨verdicts, -, hreport⟩ := Run.outcome_bind_eq_ok.mp hwork
    obtain rfl := Except.ok.inj hreport
    cases hfailed

/-! ### Agreement -/

/-- The three commands for the configuration at a path. -/
def commandsOn (path flags : String) : List Command :=
  [.edges path, .describe path flags, .validate path]

/-- The commands differ only in their work on a cut set, if the flags are valid. -/
theorem exists_work {flags : String} {o : DescribeOptions}
    (hflags : DescribeOptions.ofFlags flags = .ok o) (read : String → Option String)
    {path : String} {command : Command} (h : command ∈ commandsOn path flags) :
    ∃ work, run read command = runOn read path work := by
  rcases List.mem_cons.mp h with rfl | h
  · exact ⟨writeEdges, rfl⟩
  · rcases List.mem_cons.mp h with rfl | h
    · exact ⟨fun _ => writeDescription o, by rw [run, hflags]⟩
    · obtain rfl := List.mem_singleton.mp h
      exact ⟨writeVerdicts, rfl⟩

/-- **The three commands agree**, whatever is found at the path, if the flags are valid. They all
fail alike if the configuration cannot be loaded, or if its cut set cannot be built, because
something is refused or for any other reason. On a cut set, none of them fails in this way: there
is a name for each tree, the description depends on nothing else, and the commands for edges and
for verdicts end together. A command that fails with a chain of causes has written nothing. -/
theorem run_agree {read : String → Option String} {path flags : String} {o : DescribeOptions}
    (hflags : DescribeOptions.ofFlags flags = .ok o) :
    (∀ chain, load read path = .error chain → ∀ command ∈ commandsOn path flags,
      run read command = ⟨[], .ok (Report.failure chain)⟩) ∧
    (∀ c, load read path = .ok c →
      (∀ cause, (build c).outcome = .error (.refused cause) →
        ∀ command ∈ commandsOn path flags,
          run read command = ⟨(build c).events, .ok (Report.failure [.error cause])⟩) ∧
      (∀ e, (build c).outcome = .error e → (∀ cause, e ≠ .refused cause) →
        ∀ command ∈ commandsOn path flags, run read command = ⟨(build c).events, .error e⟩) ∧
      ∀ cuts, (build c).outcome = .ok cuts → c.names.length = cuts.trees.length ∧
        (run read (.describe path flags)).outcome =
          (cuts.describe o).map (fun text => ⟨text, .done true⟩) ∧
        Endings c cuts (run read (.edges path)).outcome (run read (.validate path)).outcome) ∧
    ∀ command ∈ commandsOn path flags, ∀ report chain, (run read command).outcome = .ok report →
      report.ending = .failed chain → report.output = "" := by
  refine ⟨?unloaded, fun c hload => ⟨?refused, ?failed, ?built⟩, ?output⟩
  case unloaded =>
    intro chain hload command hcommand
    obtain ⟨work, hwork⟩ := exists_work hflags read hcommand
    rw [hwork, runOn_of_unloaded work hload]
  case refused =>
    intro cause hcause command hcommand
    obtain ⟨work, hwork⟩ := exists_work hflags read hcommand
    rw [hwork, runOn_of_refused work hload hcause]
  case failed =>
    intro e he hother command hcommand
    obtain ⟨work, hwork⟩ := exists_work hflags read hcommand
    rw [hwork, runOn_of_failed work hload he hother]
  case built =>
    intro cuts hbuild
    exact ⟨length_names_of_build hbuild, outcome_run_describe hload hbuild hflags,
      endings_of_built hload hbuild⟩
  case output =>
    intro command _ report chain hrun hfailed
    exact output_of_failed hrun hfailed

/-- Two single bins and then a group of two have a good verdict and edges. -/
theorem run_agree_unit :
    DescribeOptions.ofFlags "noranges" = .ok DescribeOptions.full.withoutRanges ∧
    (∃ text, (run (fun _ => some unitText) (.describe "five.json" "noranges")).outcome =
      .ok ⟨text, .done true⟩) ∧
    (run (fun _ => some unitText) (.validate "five.json")).outcome =
      .ok ⟨"dim0: ok\n", .done true⟩ ∧
    ∃ lists, (run (fun _ => some unitText) (.edges "five.json")).outcome =
      .ok ⟨edgesText ["dim0"] lists, .done true⟩ := by
  have hflags : DescribeOptions.ofFlags "noranges" = .ok DescribeOptions.full.withoutRanges := by
    rfl
  have htext : Config.ofText unitText = .ok (Config.fiveBins [⟨1, some 2⟩, ⟨2, some 1⟩]) := by
    decide +kernel
  have haxes : (Config.fiveBins [⟨1, some 2⟩, ⟨2, some 1⟩]).buildAxes =
      .ok [⟨Config.fiveEdges, none⟩] := by rfl
  have hcuts : ((Config.fiveBins [⟨1, some 2⟩, ⟨2, some 1⟩]).buildCutSet
        [⟨Config.fiveEdges, none⟩]).outcome =
      .ok ⟨[⟨some ⟨Config.fiveEdges, none⟩, ⟨1, 0, 1, 6, 5, by decide⟩,
        [⟨some ⟨Config.fiveEdges, none⟩, ⟨1, 0, 1, 2, 5, by decide⟩, []⟩,
          ⟨some ⟨Config.fiveEdges, none⟩, ⟨2, 0, 2, 2, 2, by decide⟩, []⟩]⟩]⟩ := by rfl
  have hload : load (fun _ => some unitText) "five.json" = .ok _ := load_eq_ok.mpr ⟨_, rfl, htext⟩
  obtain ⟨-, hagree, -⟩ := @run_agree (fun _ => some unitText) "five.json" _ _ hflags
  obtain ⟨-, -, hbuilt⟩ := hagree _ hload
  obtain ⟨-, hdescribe, hendings⟩ := hbuilt _ (build_eq_ok.mpr ⟨_, haxes, hcuts⟩)
  refine ⟨hflags, ⟨_, hdescribe.trans (by rfl)⟩, ?_⟩
  rcases hendings with ⟨t, ht, hvalid, -, -⟩ | ⟨valids, hvalids, hall, -, -⟩ |
    ⟨valids, hvalids, -, hedges, hverdicts⟩
  · obtain rfl := List.mem_singleton.mp ht
    cases hvalid
  · obtain rfl : valids = [true] := Except.ok.inj (mapM_eq_ok.mpr hvalids).symm
    cases hall
  · obtain rfl : valids = [true] := Except.ok.inj (mapM_eq_ok.mpr hvalids).symm
    have hroom : HasRoom (Config.fiveBins [⟨1, some 2⟩, ⟨2, some 1⟩]) := by
      intro axes haxes' a ha
      obtain rfl := Except.ok.inj (haxes.symm.trans haxes')
      obtain rfl := List.mem_singleton.mp ha
      decide
    refine ⟨hverdicts, ?_⟩
    rcases hedges hroom with ⟨-, lists, -, hlists⟩ | ⟨⟨t, ht, hcount⟩, -⟩
    · exact ⟨lists, hlists⟩
    · obtain rfl := List.mem_singleton.mp ht
      exact absurd hcount (by decide)

/-! ### Ranges that go backwards -/

/-- A range that ends in the overflow bin, a range of huge groups that takes back more than the
first one covered, and single bins from there on. -/
def backwardsText : String :=
  fiveBinsText ("\x7b\"group_size\":1,\"bins\":6\x7d,\x7b\"group_size\":4611686018427387904\x7d," ++
    "\x7b\"group_size\":1\x7d")

/-- **No edges for a valid configuration.** All verdicts are good, but the third range has more
grouped bins than a list can hold, and the command for edges does not succeed. -/
theorem run_edges_backwards :
    Config.ofText backwardsText =
      .ok (Config.fiveBins [⟨1, some 6⟩, ⟨4611686018427387904, none⟩, ⟨1, none⟩]) ∧
    (run (fun _ => some backwardsText) (.validate "five.json")).outcome =
      .ok ⟨"dim0: ok\n", .done true⟩ ∧
    (run (fun _ => some backwardsText) (.edges "five.json")).outcome = .error .tooLarge := by
  have htext : Config.ofText backwardsText =
      .ok (Config.fiveBins [⟨1, some 6⟩, ⟨4611686018427387904, none⟩, ⟨1, none⟩]) := by
    decide +kernel
  have hcuts : ((Config.fiveBins [⟨1, some 6⟩, ⟨4611686018427387904, none⟩,
        ⟨1, none⟩]).buildCutSet [⟨Config.fiveEdges, none⟩]).outcome =
      .ok ⟨[⟨some ⟨Config.fiveEdges, none⟩, ⟨1, 0, 1, 6, 5, by decide⟩,
        [⟨some ⟨Config.fiveEdges, none⟩, ⟨1, 0, 1, 6, 5, by decide⟩, []⟩,
          ⟨some ⟨Config.fiveEdges, none⟩, ⟨4611686018427387904, 6, 1, -1, -1, by decide⟩, []⟩,
          ⟨some ⟨Config.fiveEdges, none⟩, ⟨1, 0, -4611686018427387897, 5, 5, by decide⟩,
            []⟩]⟩]⟩ := by
    rfl
  have hload : load (fun _ => some backwardsText) "five.json" = .ok _ :=
    load_eq_ok.mpr ⟨_, rfl, htext⟩
  have hbuild := build_eq_ok.mpr ⟨[⟨Config.fiveEdges, none⟩], by rfl, hcuts⟩
  refine ⟨htext, ?_, ?_⟩
  · exact outcome_runOn_of_built writeVerdicts hload hbuild (by rfl) nofun
  · exact outcome_runOn_of_built writeEdges hload hbuild (by rfl) nofun

end CommandLine

end Binning
