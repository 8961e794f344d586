import Binning.CommandLine.Report
import Binning.Proofs.Sequence

/-!
# Verdicts on all dimensions

There are two ways to validate the trees of a cut set. `Binning.CutSet.validate` asks whether
all are contiguous, and `Binning.CommandLine.verdicts` writes down the answer of each one. Both
ask every tree in turn, also after one that is not contiguous, so they get the same answers and
fail alike (`Binning.CutSet.outcome_validateFrom`, `Binning.CommandLine.outcome_verdicts`).
-/

namespace Binning

open Outcome

namespace CutSet

variable {β : Type} [BaseAxis β]

/-- The warning about a tree that is not contiguous changes no verdict. -/
theorem outcome_validateFrom_cons (index : Nat) (t : Node β) (ts : List (Node β)) :
    (validateFrom index (t :: ts)).outcome = t.validateContiguity.outcome >>= fun valid =>
      (validateFrom (index + 1) ts).outcome.map (valid && ·) := by
  have hlast (valid : Bool) : (validateFrom (index + 1) ts >>= fun rest =>
      (pure (valid && rest) : Run Bool)).outcome =
        (validateFrom (index + 1) ts).outcome.map (valid && ·) := by
    rw [Run.bind_pure_eq_onValue]
    rfl
  rw [validateFrom, Run.outcome_bind]
  refine congrArg (Except.bind _) (funext fun valid => ?_)
  cases valid with
  | true => exact hlast true
  | false =>
    change (Run.emit (dimensionEvent index) >>= fun _ => _).outcome = _
    rw [Run.outcome_bind]
    exact hlast false

/-- **Validating trees** is asking each of them in turn, and all of them must be contiguous. -/
theorem outcome_validateFrom (index : Nat) (ts : List (Node β)) :
    (validateFrom index ts).outcome =
      (ts.mapM fun t : Node β => t.validateContiguity.outcome).map fun valids => valids.all id := by
  induction ts generalizing index with
  | nil => rfl
  | cons t ts ih =>
    rw [outcome_validateFrom_cons, List.mapM_cons, ih]
    cases t.validateContiguity.outcome with
    | error e => rfl
    | ok valid => cases ts.mapM fun t : Node β => t.validateContiguity.outcome <;> rfl

/-- Every tree of a valid cut set is contiguous. -/
theorem validateContiguity_of_validate {c : CutSet β} (h : c.validate.outcome = .ok true) :
    ∀ t ∈ c.trees, t.validateContiguity.outcome = .ok true := by
  rw [validate, outcome_validateFrom] at h
  obtain ⟨valids, hvalids, hall⟩ := Except.map_eq_ok.mp h
  intro t ht
  obtain ⟨i, hi⟩ := List.mem_iff_getElem?.mp ht
  obtain ⟨valid, hvalid, hget⟩ := exists_getElem?_of_forall₂ (mapM_eq_ok.mp hvalids).flip hi
  have htrue : valid = true := List.all_eq_true.mp hall valid (List.mem_of_getElem? hvalid)
  rw [hget, htrue]

end CutSet

namespace CommandLine

/-- The verdicts on named dimensions as a text. -/
def verdictsText (names : List String) (valids : List Bool) : String :=
  String.join (List.zipWith verdictText names valids)

theorem verdictsText_cons (name : String) (names : List String) (valid : Bool)
    (valids : List Bool) : verdictsText (name :: names) (valid :: valids) =
      verdictText name valid ++ verdictsText names valids := by
  rw [verdictsText, List.zipWith_cons_cons, String.join_cons]
  rfl

/-- **Writing verdicts** is asking each tree in turn as well. -/
theorem outcome_verdicts {names : List String} {ts : List (Node Axis)}
    (hlen : names.length = ts.length) : (verdicts (names.zip ts)).outcome =
      (ts.mapM fun t : Node Axis => t.validateContiguity.outcome).map fun valids =>
        (verdictsText names valids, valids.all id) := by
  induction ts generalizing names with
  | nil =>
    obtain rfl := List.length_eq_zero_iff.mp hlen
    rfl
  | cons t ts ih =>
    obtain ⟨name, names, rfl⟩ := List.exists_cons_of_length_eq_add_one hlen
    have hrest := ih (Nat.succ.inj hlen)
    rw [List.zip_cons_cons, verdicts, Run.outcome_bind, List.mapM_cons]
    cases t.validateContiguity.outcome with
    | error e => rfl
    | ok valid =>
      change (verdicts (names.zip ts) >>= fun _ => _).outcome = _
      rw [Run.outcome_bind, hrest]
      cases ts.mapM fun t : Node Axis => t.validateContiguity.outcome with
      | error e => rfl
      | ok valids =>
        change Except.ok (_, _) = Except.ok (_, _)
        rw [verdictsText_cons]
        rfl

end CommandLine

end Binning
