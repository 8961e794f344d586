import Binning.Error
import Binning.Event

/-!
# Outcomes and runs

A computation ends with a value or with a failure (`Binning.Outcome`). The
failures are of five kinds (`Binning.Failure`): an error is handed back to the
caller, or it aborts the operation; a coordinate leaves its range; a list or a text
would be too large to be kept; or a dimension is asked for that does not exist.
Only the first is meant to be answered by going on.

A computation may report events on its way (`Binning.Run`). The events stay when
it fails: a run is its events together with its outcome, and a run that goes on
after another reports after it (`Binning.Run.events_bind`).
-/

namespace Binning

/-- How a computation can fail. -/
inductive Failure where
  /-- The error is handed back. -/
  | refused (cause : BinningError)
  /-- The error aborts an operation that must not fail. -/
  | aborted (cause : BinningError)
  /-- A number leaves the range of its type. -/
  | overflow
  /-- A list or a text has no room. -/
  | tooLarge
  /-- An index beyond the end of a sequence. -/
  | outOfRange (length index : Nat)
  deriving DecidableEq

/-- The text of a failure. -/
def Failure.message : Failure → String
  | .refused cause => cause.message
  | .aborted cause => "Fatal binning configuration error: " ++ cause.message
  | .overflow => "arithmetic overflow"
  | .tooLarge => "capacity overflow"
  | .outOfRange length index =>
    "index out of bounds: the len is " ++ toString length ++ " but the index is " ++
      toString index

/-- A value or a failure. -/
abbrev Outcome := Except Failure

namespace Outcome

/-- An error handed back. -/
def refuse {α : Type} (cause : BinningError) : Outcome α := .error (.refused cause)

/-- The outcome of making an axis. -/
def ofAxis {α : Type} : Except AxisError α → Outcome α
  | .ok a => .ok a
  | .error e => refuse (.axis e)

end Outcome

/-- A computation that reports events. -/
structure Run (α : Type) where
  /-- What was reported, in order. -/
  events : List Event
  /-- How it ended. -/
  outcome : Outcome α

namespace Run

variable {α β : Type}

/-- A computation that reports nothing. -/
def ofOutcome (o : Outcome α) : Run α := ⟨[], o⟩

/-- Go on with the value of a run, if it has one. -/
def andThen (r : Run α) (f : α → Run β) : Run β :=
  match r.outcome with
  | .ok a => ⟨r.events ++ (f a).events, (f a).outcome⟩
  | .error e => ⟨r.events, .error e⟩

instance : Monad Run where
  pure a := ofOutcome (.ok a)
  bind := andThen

instance : MonadLift (Except Failure) Run := ⟨ofOutcome⟩

/-- Report an event. -/
def emit (e : Event) : Run Unit := ⟨[e], .ok ()⟩

/-- Fail. -/
def fail (e : Failure) : Run α := ⟨[], .error e⟩

/-! ### The two parts of a run -/

@[simp] theorem events_ofOutcome (o : Outcome α) : (ofOutcome o).events = [] := rfl

@[simp] theorem outcome_ofOutcome (o : Outcome α) : (ofOutcome o).outcome = o := rfl

@[simp] theorem events_pure (a : α) : (pure a : Run α).events = [] := rfl

@[simp] theorem outcome_pure (a : α) : (pure a : Run α).outcome = .ok a := rfl

@[simp] theorem events_emit (e : Event) : (emit e).events = [e] := rfl

@[simp] theorem outcome_emit (e : Event) : (emit e).outcome = .ok () := rfl

@[simp] theorem events_fail (e : Failure) : (fail e : Run α).events = [] := rfl

@[simp] theorem outcome_fail (e : Failure) : (fail e : Run α).outcome = .error e := rfl

/-- A run that goes on reports after what was reported before. -/
theorem events_bind (r : Run α) (f : α → Run β) :
    (r >>= f).events =
      r.events ++ (match r.outcome with | .ok a => (f a).events | .error _ => []) := by
  change (andThen r f).events = _
  unfold andThen
  split <;> simp_all

/-- A run that goes on ends as its continuation does, unless it has failed. -/
theorem outcome_bind (r : Run α) (f : α → Run β) :
    (r >>= f).outcome = r.outcome.bind fun a => (f a).outcome := by
  change (andThen r f).outcome = _
  unfold andThen
  split <;> simp_all [Except.bind]

end Run

end Binning
