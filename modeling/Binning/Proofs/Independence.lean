import Binning.Proofs.Building
import Binning.Proofs.Sequence

/-!
# Dimensions are independent

The dimensions of a configuration are built in turn, and nothing that one of them does is
seen by another: each one could be built alone (`Binning.Dimension.buildAlone`), as the only
dimension of a configuration. Alone it would only be called by another name, since a
dimension without a name is named by its number.

So building a cut set is building its dimensions alone, in turn, with the names that they
have in the configuration (`Binning.Config.buildCutSet_eq_inTurn`). What follows for its trees, for
its failure and for its events is `Binning.Config.buildCutSet_independent`.
-/

namespace Binning

/-- An event that names a dimension, with another name. -/
def Event.ofDimension (name : String) (e : Event) : Event :=
  { e with fields := e.fields.map fun field =>
      if field.1 = "dimension" then (field.1, name) else field }

namespace Run

variable {α β : Type}

/-- A run that calls a dimension by another name. -/
def ofDimension (name : String) (r : Run α) : Run α :=
  ⟨r.events.map (Event.ofDimension name), r.outcome⟩

/-- Another name is used throughout. -/
theorem ofDimension_bind (name : String) (r : Run α) (f : α → Run β) :
    (r >>= f).ofDimension name = r.ofDimension name >>= fun a => (f a).ofDimension name := by
  change (andThen r f).ofDimension name = andThen (r.ofDimension name) _
  obtain ⟨events, outcome⟩ := r
  cases outcome with
  | error e => rfl
  | ok a =>
    simp only [andThen, ofDimension, List.map_append]

theorem ofDimension_onValue (name : String) (f : α → β) (r : Run α) :
    (r.onValue f).ofDimension name = (r.ofDimension name).onValue f := rfl

end Run

/-- With one axis for each dimension, a cut set is built of the trees of all dimensions. -/
theorem Config.buildCutSet_eq_onValue {c : Config} {axes : List Axis}
    (hlen : axes.length = c.dimensions.length) :
    c.buildCutSet axes = (buildTreesFrom 0 (c.dimensions.zip axes)).onValue CutSet.mk := by
  rw [buildCutSet, if_pos hlen, Run.bind_pure_eq_onValue]

/-! ### A dimension alone -/

namespace Dimension

/-- **A dimension alone**: the cut set of the configuration that has no other. -/
def buildAlone (d : Dimension) (axis : Axis) : Run (CutSet Axis) :=
  Config.buildCutSet ⟨[d]⟩ [axis]

/-- Ranges do not mention the dimension that they belong to. -/
theorem ofDimension_appendRange {β : Type} [BaseAxis β] (name : String) (n : Node β) (size : Int)
    (bins : Option Int) : (n.appendRange size bins).ofDimension name = n.appendRange size bins := by
  have hevent (p : Placement) :
      (Run.emit (Node.rangeEvent size p)).ofDimension name =
        Run.emit (Node.rangeEvent size p) := rfl
  have hstage : (n.stageRange size bins).ofDimension name = n.stageRange size bins := by
    unfold Node.stageRange
    split
    · split
      · rfl
      · rw [Run.ofDimension_bind]
        refine congrArg (Run.andThen _) (funext fun p => ?_)
        rw [Run.ofDimension_bind, hevent]
        rfl
    · rfl
  rw [Node.appendRange, Run.ofDimension_bind, hstage]
  rfl

theorem ofDimension_addRanges (name : String) (n : Node Axis) (rs : List RangeSpec) :
    (addRanges n rs).ofDimension name = addRanges n rs := by
  induction rs generalizing n with
  | nil => rfl
  | cons r rs ih =>
    rw [addRanges, Run.ofDimension_bind, ofDimension_appendRange]
    exact congrArg (Run.andThen _) (funext fun m => ih m)

/-- The number of a dimension has a part in its name only. -/
theorem buildTree_eq_ofDimension (d : Dimension) (index : Nat) (axis : Axis) :
    d.buildTree index axis = (d.buildTree 0 axis).ofDimension (d.displayName index) := by
  have hevent : (Run.emit (d.treeEvent 0)).ofDimension (d.displayName index) =
      Run.emit (d.treeEvent index) := rfl
  rw [buildTree, buildTree, Run.ofDimension_bind]
  refine congrArg (Run.andThen _) (funext fun root => ?_)
  rw [Run.ofDimension_bind, ofDimension_addRanges]
  refine congrArg (Run.andThen _) (funext fun tree => ?_)
  rw [Run.ofDimension_bind, hevent]
  rfl

/-- A dimension alone gives a cut set of its tree. -/
theorem buildAlone_eq_onValue (d : Dimension) (axis : Axis) :
    d.buildAlone axis = (d.buildTree 0 axis).onValue fun tree => ⟨[tree]⟩ := by
  have hone : Config.buildTreesFrom 0 [(d, axis)] =
      (d.buildTree 0 axis).onValue fun tree => [tree] := by
    rw [← Run.bind_pure_eq_onValue]
    rfl
  have hlen : [axis].length = [d].length := rfl
  have hzip : [d].zip [axis] = [(d, axis)] := rfl
  rw [buildAlone, Config.buildCutSet_eq_onValue hlen, hzip, hone, Run.onValue_onValue]

end Dimension

/-! ### All dimensions -/

namespace Config

/-- **The dimensions alone**, each over its axis, with the name that its number in the
configuration gives it. -/
def alone (c : Config) (axes : List Axis) : List (Run (CutSet Axis)) :=
  (c.dimensions.zip axes).mapIdx fun i p =>
    (p.1.buildAlone p.2).ofDimension (p.1.displayName i)

/-- The trees of dimensions are built in turn. -/
theorem buildTreesFrom_eq_inTurn (index : Nat) (ds : List (Dimension × Axis)) :
    buildTreesFrom index ds =
      Run.inTurn (ds.mapIdx fun i p => p.1.buildTree (index + i) p.2) := by
  induction ds generalizing index with
  | nil => rfl
  | cons d ds ih =>
    obtain ⟨d, axis⟩ := d
    have hnext : (fun i (p : Dimension × Axis) => p.1.buildTree (index + (i + 1)) p.2) =
        fun i p => p.1.buildTree (index + 1 + i) p.2 := by
      refine funext fun i => funext fun p => ?_
      rw [Nat.add_assoc, Nat.add_comm 1 i]
    rw [List.mapIdx_cons, hnext, buildTreesFrom, ih, Run.inTurn]
    rfl

/-- A dimension alone is its tree as a cut set. -/
theorem alone_eq_map (c : Config) (axes : List Axis) :
    c.alone axes = ((c.dimensions.zip axes).mapIdx fun i p => p.1.buildTree i p.2).map
      (Run.onValue fun tree => ⟨[tree]⟩) := by
  refine List.ext_getElem? fun i => ?_
  rw [alone, List.getElem?_map, List.getElem?_mapIdx, List.getElem?_mapIdx, Option.map_map]
  refine congrArg (Option.map · _) (funext fun p => ?_)
  rw [Dimension.buildAlone_eq_onValue, Run.ofDimension_onValue, Function.comp_apply,
    p.1.buildTree_eq_ofDimension i]

/-- **A cut set is built of its dimensions in turn**: their trees make up the cut set. -/
theorem buildCutSet_eq_inTurn {c : Config} {axes : List Axis}
    (hlen : axes.length = c.dimensions.length) :
    ∃ trees : List (Run (Node Axis)), c.alone axes = trees.map (Run.onValue fun t => ⟨[t]⟩) ∧
      c.buildCutSet axes = (Run.inTurn trees).onValue CutSet.mk := by
  refine ⟨_, c.alone_eq_map axes, ?_⟩
  rw [buildCutSet_eq_onValue hlen, buildTreesFrom_eq_inTurn]
  refine congrArg (fun f => Run.onValue _ (Run.inTurn (List.mapIdx f _))) ?_
  refine funext fun i => ?_
  rw [Nat.zero_add]

/-- **Dimensions are independent.** With one axis for each dimension, a cut set can be built
exactly if the cut set of each dimension alone can, and its trees are theirs. Otherwise it fails as
the first dimension does that fails alone. The events are those of the dimensions alone,
one after the other, up to the first that fails, with the names of the dimensions in
this configuration. -/
theorem buildCutSet_independent {c : Config} {axes : List Axis}
    (hlen : axes.length = c.dimensions.length) :
    (∀ cuts, (c.buildCutSet axes).outcome = .ok cuts ↔
      List.Forall₂ (fun r tree => r.outcome = .ok ⟨[tree]⟩) (c.alone axes) cuts.trees) ∧
    ((∃ cuts, (c.buildCutSet axes).outcome = .ok cuts) ↔
      ∀ r ∈ c.alone axes, ∃ single, r.outcome = .ok single) ∧
    ((∃ cuts, (c.buildCutSet axes).outcome = .ok cuts) →
      (c.buildCutSet axes).events = (c.alone axes).flatMap Run.events) ∧
    (∀ e, (c.buildCutSet axes).outcome = .error e ↔
      ∃ (i : Nat) (r : Run (CutSet Axis)), (c.alone axes)[i]? = some r ∧ r.outcome = .error e ∧
        ∀ before ∈ (c.alone axes).take i, ∃ single, before.outcome = .ok single) ∧
    ∀ (i : Nat) (r : Run (CutSet Axis)) (e : Failure), (c.alone axes)[i]? = some r →
      r.outcome = .error e →
      (∀ before ∈ (c.alone axes).take i, ∃ single, before.outcome = .ok single) →
      (c.buildCutSet axes).events = ((c.alone axes).take (i + 1)).flatMap Run.events := by
  obtain ⟨trees, halone, hbuild⟩ := buildCutSet_eq_inTurn hlen
  have hturn : Run.inTurn (c.alone axes) =
      (Run.inTurn trees).onValue (List.map fun t => ⟨[t]⟩) := by
    rw [halone, Run.inTurn_map_onValue]
  -- What happens is the same whether the trees are kept as they are or as cut sets.
  have hevents : (c.buildCutSet axes).events = (Run.inTurn (c.alone axes)).events := by
    rw [hbuild, hturn]
    rfl
  have hfails (e : Failure) : (c.buildCutSet axes).outcome = .error e ↔
      (c.alone axes).mapM Run.outcome = .error e := by
    rw [← Run.outcome_inTurn, hbuild, hturn, Run.onValue_eq_error, Run.onValue_eq_error]
  have hworks : (∃ cuts, (c.buildCutSet axes).outcome = .ok cuts) ↔
      ∀ r ∈ c.alone axes, ∃ single, r.outcome = .ok single := by
    rw [← Outcome.exists_mapM_eq_ok, ← Run.outcome_inTurn, hbuild, hturn]
    simp only [Run.onValue_eq_ok]
    constructor
    · rintro ⟨_, ts, hts, -⟩
      exact ⟨_, ts, hts, rfl⟩
    · rintro ⟨_, ts, hts, -⟩
      exact ⟨_, ts, hts, rfl⟩
  refine ⟨fun cuts => ?_, hworks, fun hok => ?_, fun e => ?_, fun i r e hr he hbefore => ?_⟩
  · rw [hbuild, halone, Run.onValue_eq_ok, List.forall₂_map_left_iff, Run.outcome_inTurn]
    have hsingle (r : Run (Node Axis)) (t : Node Axis) :
        (r.onValue fun t => (⟨[t]⟩ : CutSet Axis)).outcome = .ok ⟨[t]⟩ ↔ r.outcome = .ok t := by
      rw [Run.onValue_eq_ok]
      simp
    simp only [hsingle, ← Outcome.mapM_eq_ok]
    constructor
    · rintro ⟨ts, hts, rfl⟩
      exact hts
    · exact fun hts => ⟨cuts.trees, hts, rfl⟩
  · rw [hevents, Run.events_inTurn_of_ok (hworks.mp hok)]
  · rw [hfails, Outcome.mapM_eq_error]
  · rw [hevents, Run.events_inTurn_of_error hr he hbefore]

/-- An axis of a single bin. -/
def oneBin : Axis := ⟨[⟨0⟩, ⟨0x3FF0000000000000⟩], none⟩

/-- A dimension of a single bin, with a range of all groups of a size. -/
def dimensionOf (size : Int) : Dimension := ⟨none, .edges oneBin.edges, none, [⟨size, none⟩]⟩

/-- Four dimensions, of which the third is the first that cannot be built. -/
def refusedThird : Config :=
  ⟨[dimensionOf 1, dimensionOf 2, dimensionOf 0, dimensionOf (-1)]⟩

/-- The third of four dimensions is refused, after the events of the first two. -/
theorem buildCutSet_independent_refused :
    [oneBin, oneBin, oneBin, oneBin].length = refusedThird.dimensions.length ∧
    (refusedThird.buildCutSet [oneBin, oneBin, oneBin, oneBin]).outcome =
      .error (.refused (.invalidGroupSize 0)) ∧
    (refusedThird.buildCutSet [oneBin, oneBin, oneBin, oneBin]).events =
      [Node.rangeEvent 1 ⟨0, 1, 1, ⟨1, 0, 1, 2, 1, by decide⟩⟩, (dimensionOf 1).treeEvent 0,
        Node.rangeEvent 2 ⟨1, 0, 0, ⟨1, 1, 0, 1, 1, by decide⟩⟩, (dimensionOf 2).treeEvent 1] := by
  have hlen : [oneBin, oneBin, oneBin, oneBin].length = refusedThird.dimensions.length := rfl
  obtain ⟨-, -, -, hfails, hevents⟩ := buildCutSet_independent hlen
  have hthird : (refusedThird.alone [oneBin, oneBin, oneBin, oneBin])[2]? = some _ := rfl
  have hbefore : ∀ before ∈ (refusedThird.alone [oneBin, oneBin, oneBin, oneBin]).take 2,
      ∃ single, before.outcome = .ok single :=
    List.forall_mem_cons.mpr ⟨⟨_, rfl⟩, List.forall_mem_singleton.mpr ⟨_, rfl⟩⟩
  exact ⟨hlen, (hfails _).mpr ⟨2, _, hthird, rfl, hbefore⟩,
    (hevents 2 _ _ hthird rfl hbefore).trans (by decide +kernel)⟩

end Config

end Binning
