/-!
# Events

Building and checking trees reports what happens as a sequence of events. An
event has a severity, a message and perhaps named values.
-/

namespace Binning

/-- How serious an event is. -/
inductive Level where
  | error
  | warn
  | info
  | debug
  deriving DecidableEq, Repr

/-- Something worth reporting. -/
structure Event where
  level : Level
  message : String
  /-- Named values, each as text. -/
  fields : List (String × String)
  deriving DecidableEq, Repr

end Binning
