import Binning.Run

/-!
# Outcomes, step by step

A computation of several steps succeeds exactly if each step does
(`Binning.Outcome.bind_eq_ok`, `Binning.Run.outcome_bind_eq_ok`). What a library
proves about a success starts here: the steps are peeled off one by one.

Much of the library only calculates, and can fail in a single way: a coordinate
leaves its range. Such a computation *gives* a value (`Binning.Outcome.Gives`) if
it ends with that value or with an overflow. Of two values it gives at most one is
reached (`Binning.Outcome.Gives.eq_of_ok`), so a value that was reached is known
without following the steps again.
-/

namespace Binning

/-! ### Computations that may fail -/

namespace Except

variable {ε α β : Type} {r : Except ε α}

/-- Two steps succeed exactly if both do. -/
theorem bind_eq_ok {f : α → Except ε β} {b : β} :
    (r >>= f) = .ok b ↔ ∃ a, r = .ok a ∧ f a = .ok b := by
  cases r with
  | error e => simp [bind, Except.bind]
  | ok a => simp [bind, Except.bind]

/-- A result that is changed afterwards. -/
theorem map_eq_ok {f : α → β} {b : β} : r.map f = .ok b ↔ ∃ a, r = .ok a ∧ f a = b := by
  cases r with
  | error e => simp [Except.map]
  | ok a => simp [Except.map]

end Except

namespace Outcome

variable {α β : Type}

/-! ### Success -/

/-- Two steps succeed exactly if both do. -/
theorem bind_eq_ok {o : Outcome α} {f : α → Outcome β} {b : β} :
    (o >>= f) = .ok b ↔ ∃ a, o = .ok a ∧ f a = .ok b := Except.bind_eq_ok

@[simp] theorem ok_bind (a : α) (f : α → Outcome β) : ((.ok a : Outcome α) >>= f) = f a := rfl

@[simp] theorem error_bind (e : Failure) (f : α → Outcome β) :
    ((.error e : Outcome α) >>= f) = .error e := rfl

@[simp] theorem pure_eq_ok {a b : α} : (pure a : Outcome α) = .ok b ↔ a = b := by
  simp [pure, Except.pure]

@[simp] theorem refuse_ne_ok {cause : BinningError} {a : α} : refuse cause ≠ .ok a := by
  simp [refuse]

/-! ### A value, unless there is an overflow -/

/-- **The computation gives a value**: it ends with this value, unless a coordinate
leaves its range. -/
def Gives (o : Outcome α) (a : α) : Prop := o = .ok a ∨ o = .error .overflow

/-- The only value that can be reached is the one that is given. -/
theorem Gives.eq_of_ok {o : Outcome α} {a b : α} (h : Gives o a) (hb : o = .ok b) : b = a := by
  rcases h with h | h
  · rw [h] at hb
    exact (Except.ok.inj hb).symm
  · rw [h] at hb
    cases hb

/-- A value that is reached at all is the one that is given. -/
theorem Gives.ok_of_ok {o : Outcome α} {a b : α} (h : Gives o a) (hb : o = .ok b) : o = .ok a := by
  rw [hb, h.eq_of_ok hb]

theorem gives_ok (a : α) : Gives (.ok a) a := .inl rfl

theorem gives_pure (a : α) : Gives (pure a) a := .inl rfl

/-- Step after step: what a computation gives is passed on to the next one. -/
theorem Gives.bind {o : Outcome α} {a : α} {f : α → Outcome β} {b : β} (h : Gives o a)
    (hf : Gives (f a) b) : Gives (o >>= f) b := by
  rcases h with rfl | rfl
  · exact hf
  · exact .inr rfl

/-- A refusal comes after what is given. -/
theorem Gives.refused_of_bind {o : Outcome α} {a : α} {f : α → Outcome β} {cause : BinningError}
    (h : Gives o a) (hf : (o >>= f) = .error (.refused cause)) :
    f a = .error (.refused cause) := by
  rcases h with rfl | rfl
  · exact hf
  · cases hf

end Outcome

namespace Run

variable {α β : Type}

@[simp] theorem outcome_liftM (o : Outcome α) : (liftM o : Run α).outcome = o := rfl

/-- Two steps of a run succeed exactly if both do. -/
theorem outcome_bind_eq_ok {r : Run α} {f : α → Run β} {b : β} :
    (r >>= f).outcome = .ok b ↔ ∃ a, r.outcome = .ok a ∧ (f a).outcome = .ok b := by
  rw [outcome_bind]
  exact Outcome.bind_eq_ok

/-- A run that has failed does not go on. -/
theorem bind_of_error {r : Run α} {e : Failure} (h : r.outcome = .error e) (f : α → Run β) :
    r >>= f = ⟨r.events, .error e⟩ := by
  obtain ⟨events, outcome⟩ := r
  obtain rfl : outcome = .error e := h
  rfl

/-- What a run gives is passed on to the next one. -/
theorem gives_bind {r : Run α} {a : α} {f : α → Run β} {b : β} (h : Outcome.Gives r.outcome a)
    (hf : Outcome.Gives (f a).outcome b) : Outcome.Gives (r >>= f).outcome b := by
  rw [outcome_bind]
  exact Outcome.Gives.bind h hf

end Run

end Binning
