import Binning.Proofs.Opaque
import Binning.Proofs.Rollback
import Binning.Proofs.Room
import Binning.Proofs.Verdicts

/-!
# Which warnings a validation gives

A node that is not contiguous gives one warning, and the cut set adds another one that names the
dimension. Within a node the validation stops at the first fault; across dimensions it does not
stop at all, so that each fault is reported.

What is wrong with a node (`Binning.Node.Fault`) is said without a walk: it has no children, or
its children are a chain up to some child, and the next one does not adjoin it. The validation
finds this fault and nothing else (`Binning.Node.fault_of_validateContiguity`). A cut set is then
reported on by the faults of its dimensions, one after the other
(`Binning.CutSet.validate_reports`).

A fault is described before it is reported. Unless it overflows, the description of a child can fail
only for lack of room, which takes a child that is too deep (`Binning.Node.TooDeep`).
-/

namespace Binning

open Outcome

/-- A value that is given comes first in a run that does not overflow. -/
theorem Run.lift_bind_of_gives {α β : Type} {o : Outcome α} {a : α} {f : α → Run β}
    (h : Gives o a) (hrun : ((liftM o : Run α) >>= f).outcome ≠ .error .overflow) :
    ((liftM o : Run α) >>= f) = f a := by
  obtain rfl | rfl := h
  · exact pure_bind a f
  · exact absurd rfl hrun

namespace Node

variable {β : Type} [BaseAxis β]

/-! ### The fault of a node -/

/-- **What is wrong with the children of a node**, as the warning that says so: nothing, or that
there are none, or the first of them that does not adjoin the one before it. -/
inductive Fault (n : Node β) : Option Event → Prop
  /-- All children adjoin. -/
  | contiguous (hne : n.children ≠ []) (hchain : n.children.IsChain (Adjoins n.grouping.low)) :
    Fault n none
  /-- There are no children. -/
  | untiled (hnil : n.children = []) : Fault n (some untiledEvent)
  /-- The children up to `a` adjoin, and `b` after it does not. -/
  | gap {before after : List (Node β)} {a b : Node β} {text : String}
    (hchildren : n.children = before ++ a :: b :: after)
    (hchain : (before ++ [a]).IsChain (Adjoins n.grouping.low))
    (hgap : ¬Adjoins n.grouping.low a b)
    (htext : b.describe DescribeOptions.full.withoutRanges = .ok text) :
    Fault n (some (gapEvent (before.length + 1) (b.grouping.lower + n.grouping.low - 1)
      (a.grouping.upper + 1) text))

/-- **A validation that found this fault**: the warning, if there is one, and the verdict. -/
def found (fault : Option Event) : Run Bool := ⟨fault.toList, .ok fault.isNone⟩

/-- **The children are followed up to the first fault.** -/
theorem fault_of_follow {n : Node β} {before rest : List (Node β)} {a : Node β}
    (hchildren : n.children = before ++ a :: rest)
    (hchain : (before ++ [a]).IsChain (Adjoins n.grouping.low))
    (hrun : (follow n.grouping.low (before.length + 1) (a.grouping.upper + 1) rest).outcome ≠
      .error .overflow) :
    (∃ fault, n.Fault fault ∧
      follow n.grouping.low (before.length + 1) (a.grouping.upper + 1) rest = found fault) ∨
    ((follow n.grouping.low (before.length + 1) (a.grouping.upper + 1) rest).outcome =
      .error .tooLarge ∧ ∃ c ∈ rest, c.TooDeep) := by
  induction rest generalizing before a with
  | nil =>
    refine Or.inl ⟨none, .contiguous ?_ ?_, rfl⟩
    · simp [hchildren]
    · rwa [hchildren]
  | cons b rest ih =>
    have hsplit : n.children = (before ++ [a]) ++ b :: rest := by
      rw [hchildren, List.append_assoc, List.singleton_append]
    rw [follow] at hrun ⊢
    have hstart := Run.lift_bind_of_gives (b.shiftedStart_gives _) hrun
    rw [hstart] at hrun ⊢
    by_cases hab : Adjoins n.grouping.low a b
    · have heq : b.grouping.lower + n.grouping.low - 1 = a.grouping.upper + 1 := hab
      rw [if_pos heq] at hrun ⊢
      have hnext := Run.lift_bind_of_gives b.next_gives hrun
      rw [hnext] at hrun ⊢
      have hlast : (before ++ [a] ++ [b]).IsChain (Adjoins n.grouping.low) := by
        refine List.isChain_append.mpr ⟨hchain, List.isChain_singleton b, ?_⟩
        simpa using hab
      have hlen : before.length + 1 + 1 = (before ++ [a]).length + 1 := by simp
      rw [hlen] at hrun ⊢
      rcases ih hsplit hlast hrun with hfault | ⟨hfail, c, hc, hdeep⟩
      · exact Or.inl hfault
      · exact Or.inr ⟨hfail, c, List.mem_cons_of_mem b hc, hdeep⟩
    · have hne : ¬b.grouping.lower + n.grouping.low - 1 = a.grouping.upper + 1 := hab
      rw [if_neg hne] at hrun ⊢
      -- The fault is described before it is reported.
      rcases b.knownUnless_tooDeep with ⟨text, htext⟩ | hover | ⟨hfull, hdeep⟩
      · refine Or.inl ⟨_, .gap hchildren hchain hab htext, ?_⟩
        rw [htext]
        rfl
      · rw [hover] at hrun
        exact absurd rfl hrun
      · rw [hfull]
        exact Or.inr ⟨rfl, b, List.mem_cons_self, hdeep⟩

/-- **Validation finds the fault of a node**, unless it cannot be described. -/
theorem fault_of_validateContiguity {n : Node β}
    (hrun : n.validateContiguity.outcome ≠ .error .overflow) :
    (∃ fault, n.Fault fault ∧ n.validateContiguity = found fault) ∨
    (n.validateContiguity.outcome = .error .tooLarge ∧ ∃ c ∈ n.children, c.TooDeep) := by
  cases hchildren : n.children with
  | nil =>
    refine Or.inl ⟨_, .untiled hchildren, ?_⟩
    rw [validateContiguity, hchildren]
    rfl
  | cons first rest =>
    have hvalidate : n.validateContiguity =
        (do let expected ← first.next; follow n.grouping.low 1 expected rest : Run Bool) := by
      rw [validateContiguity, hchildren]
    rw [hvalidate] at hrun ⊢
    have hnext := Run.lift_bind_of_gives first.next_gives hrun
    rw [hnext] at hrun ⊢
    have hsplit : n.children = [] ++ first :: rest := hchildren
    rcases fault_of_follow hsplit (List.isChain_singleton first) hrun with
      hfault | ⟨hfail, c, hc, hdeep⟩
    · exact Or.inl hfault
    · exact Or.inr ⟨hfail, c, List.mem_cons_of_mem first hc, hdeep⟩

end Node

/-! ### The faults of all dimensions -/

namespace CutSet

open Node (Fault found)

variable {β : Type} [BaseAxis β]

/-- **The warnings about a dimension** whose tree has a fault: that of the tree, and then one that
names the dimension. -/
def dimensionWarnings (index : Nat) : Option Event → List Event
  | none => []
  | some e => [e, dimensionEvent index]

theorem flatten_dimensionWarnings_eq_nil (index : Nat) (faults : List (Option Event)) :
    (faults.mapIdx fun i f => dimensionWarnings (index + i) f).flatten = [] ↔
      faults.all Option.isNone = true := by
  induction faults generalizing index with
  | nil => exact iff_of_true rfl rfl
  | cons fault faults ih =>
    have hshift : (faults.mapIdx fun i f => dimensionWarnings (index + (i + 1)) f) =
        faults.mapIdx fun i f => dimensionWarnings (index + 1 + i) f := by
      simp only [Nat.add_assoc, Nat.add_comm 1]
    rw [List.mapIdx_cons, hshift, List.flatten_cons, List.append_eq_nil_iff, ih, List.all_cons,
      Bool.and_eq_true]
    cases fault <;> simp [dimensionWarnings]

/-- A dimension is reported before the ones after it. -/
theorem validateFrom_cons_of_found {t : Node β} {fault : Option Event}
    (h : t.validateContiguity = found fault) (index : Nat) (ts : List (Node β)) :
    validateFrom index (t :: ts) =
      ⟨dimensionWarnings index fault ++ (validateFrom (index + 1) ts).events,
        (validateFrom (index + 1) ts).outcome.map (fault.isNone && ·)⟩ := by
  rw [validateFrom, h]
  simp only [Run.bind_pure_eq_onValue]
  cases fault <;> rfl

/-- **Every dimension is reported on**, also after one that has a fault. -/
theorem faults_of_validateFrom {index : Nat} {ts : List (Node β)}
    (hrun : (validateFrom index ts).outcome ≠ .error .overflow) :
    (∃ faults, List.Forall₂ (fun t fault => t.Fault fault ∧ t.validateContiguity = found fault)
        ts faults ∧
      validateFrom index ts =
        ⟨(faults.mapIdx fun i f => dimensionWarnings (index + i) f).flatten,
          .ok (faults.all Option.isNone)⟩) ∨
    ((validateFrom index ts).outcome = .error .tooLarge ∧
      ∃ t ∈ ts, ∃ child ∈ t.children, child.TooDeep) := by
  induction ts generalizing index with
  | nil => exact Or.inl ⟨[], .nil, rfl⟩
  | cons t ts ih =>
    have hcons := outcome_validateFrom_cons index t ts
    have ht : t.validateContiguity.outcome ≠ .error .overflow := by
      intro hover
      rw [hcons, hover] at hrun
      exact hrun rfl
    rcases Node.fault_of_validateContiguity ht with ⟨fault, hfault, hfound⟩ | ⟨hfull, hdeep⟩
    · have hfirst := validateFrom_cons_of_found hfound index ts
      have hrest : (validateFrom (index + 1) ts).outcome ≠ .error .overflow := by
        intro hover
        rw [hfirst, hover] at hrun
        exact hrun rfl
      rcases ih hrest with ⟨faults, hfaults, heq⟩ | ⟨hfull, t', ht', hdeep⟩
      · refine Or.inl ⟨fault :: faults, .cons ⟨hfault, hfound⟩ hfaults, ?_⟩
        rw [hfirst, heq, List.mapIdx_cons]
        simp only [Nat.add_assoc, Nat.add_comm 1]
        rfl
      · refine Or.inr ⟨?_, t', List.mem_cons_of_mem t ht', hdeep⟩
        rw [hfirst, hfull]
        rfl
    · refine Or.inr ⟨?_, t, List.mem_cons_self, hdeep⟩
      rw [hcons, hfull]
      rfl

/-- Trees that are contiguous are valid together. -/
theorem validateFrom_eq_true {index : Nat} {ts : List (Node β)}
    (h : ∀ t ∈ ts, t.validateContiguity.outcome = .ok true) :
    (validateFrom index ts).outcome = .ok true := by
  induction ts generalizing index with
  | nil => rfl
  | cons t ts ih =>
    obtain ⟨ht, hts⟩ := List.forall_mem_cons.mp h
    rw [outcome_validateFrom_cons, ht, ok_bind, ih hts]
    rfl

/-- **A validation that reports on every dimension**, by the faults of their trees. -/
structure Reports (c : CutSet β) (faults : List (Option Event)) : Prop where
  /-- The faults are those of the trees, in order. -/
  fault : List.Forall₂ Fault c.trees faults
  /-- They are also what each tree finds when it is validated alone. -/
  alone : List.Forall₂ (fun t fault => t.validateContiguity = found fault) c.trees faults
  /-- A cut set without a fault is valid. -/
  outcome_eq : c.validate.outcome = .ok (faults.all Option.isNone)
  /-- Each fault is reported by two warnings, one dimension after the other. -/
  events_eq : c.validate.events = (faults.mapIdx dimensionWarnings).flatten
  /-- A cut set is valid exactly if nothing is reported. -/
  silent_iff : c.validate.outcome = .ok true ↔ c.validate.events = []

/-- **Validation checks and reports every dimension.** Unless it overflows, a cut set is valid
exactly if each of its trees is contiguous, and the faults of all trees are reported in order. It
has a verdict, unless a child is nested too deep to be described. -/
theorem validate_reports {c : CutSet β} (h : c.validate.outcome ≠ .error .overflow) :
    (c.validate.outcome = .ok true ↔
      ∀ t ∈ c.trees, t.validateContiguity.outcome = .ok true) ∧
    ((∃ faults, c.Reports faults) ∨
      c.validate.outcome = .error .tooLarge ∧
        ∃ t ∈ c.trees, ∃ child ∈ t.children, child.TooDeep) := by
  constructor
  · exact ⟨validateContiguity_of_validate, validateFrom_eq_true⟩
  · refine (faults_of_validateFrom h).imp_left fun ⟨faults, hfaults, heq⟩ => ⟨faults, ?_⟩
    have hevents : c.validate.events = (faults.mapIdx dimensionWarnings).flatten := by
      rw [validate, heq]
      simp only [Nat.zero_add]
    have houtcome : c.validate.outcome = .ok (faults.all Option.isNone) := by
      rw [validate, heq]
    exact {
      fault := hfaults.imp fun _ _ => And.left
      alone := hfaults.imp fun _ _ => And.right
      outcome_eq := houtcome
      events_eq := hevents
      silent_iff := by
        have hsilent := flatten_dimensionWarnings_eq_nil 0 faults
        simp only [Nat.zero_add] at hsilent
        rw [houtcome, Except.ok.injEq, hevents, hsilent] }

/-- Two halves of ten bins, a tree without children, and a part that starts after a gap. -/
def threeDimensions : CutSet UnitAxis :=
  ⟨[Node.halves, Node.root Node.tenBins,
    { Node.halves with children :=
      [⟨some Node.tenBins, ⟨1, 0, 1, 5, 10, Grouping.one_le_one⟩, []⟩,
        ⟨some Node.tenBins, ⟨2, 0, 4, 5, 5, Grouping.one_le_two⟩, []⟩] }]⟩

/-- The last two of these dimensions are reported, by two warnings each. -/
theorem validate_reports_threeDimensions :
    threeDimensions.validate.outcome ≠ .error .overflow ∧
    (∃ faults, threeDimensions.Reports faults) ∧
    threeDimensions.validate.outcome = .ok false ∧
    threeDimensions.validate.events.map Event.fields =
      [[], [("dim", "1")], [("child", "1"), ("start", "7"), ("expected", "6")],
        [("dim", "2")]] := by
  have hrun : threeDimensions.validate.outcome ≠ .error .overflow := nofun
  refine ⟨hrun, (validate_reports hrun).2.resolve_right nofun, by rfl, by rfl⟩

end CutSet

end Binning
