import Binning.Config.Basic
import Binning.Proofs.Outcome

/-!
# Attempts

A caller may try one call after another and go on where one is refused. This file
fixes what such a sequence of calls is (`Binning.Run.attempts`): a refused call
leaves the state as it was, any other failure ends everything, and the result names
the calls that were accepted, in order.

What each accepted call preserves, every sequence of attempts preserves
(`Binning.Run.attempts_induction`). The invariant may speak of the calls accepted so
far, which is how a property of the state is tied to its history.

For ranges this is `Binning.Node.tryRanges`. A dimension that is built from its
description tolerates no refusal, so its attempts are all accepted
(`Binning.Dimension.tryRanges_of_addRanges`).
-/

namespace Binning

namespace Run

variable {σ κ : Type}

/-- **Attempts**: calls made one after the other, going on where one is refused. The
result is the list of the accepted calls and the state in the end. -/
def attempts (step : κ → σ → Run σ) : List κ → σ → Outcome (List κ × σ)
  | [], s => .ok ([], s)
  | call :: calls, s =>
    match (step call s).outcome with
    | .ok s' => do
      let (accepted, last) ← attempts step calls s'
      return (call :: accepted, last)
    | .error (.refused _) => attempts step calls s
    | .error e => .error e

variable {step : κ → σ → Run σ}

/-- **The first of several attempts** is accepted, and the others go on with the new state,
or it is refused, and they go on with the old one. -/
theorem attempts_cons_eq_ok {call : κ} {calls accepted : List κ} {s last : σ} :
    attempts step (call :: calls) s = .ok (accepted, last) ↔
      (∃ s' rest, (step call s).outcome = .ok s' ∧ attempts step calls s' = .ok (rest, last) ∧
        accepted = call :: rest) ∨
      ∃ cause, (step call s).outcome = .error (.refused cause) ∧
        attempts step calls s = .ok (accepted, last) := by
  rw [attempts]
  split
  · next s' hcall =>
    rw [hcall, Outcome.bind_eq_ok]
    constructor
    · rintro ⟨⟨rest, last'⟩, hrest, heq⟩
      obtain ⟨rfl, rfl⟩ := Prod.mk.inj (Outcome.pure_eq_ok.mp heq)
      exact Or.inl ⟨s', rest, rfl, hrest, rfl⟩
    · rintro (⟨_, rest, hs', hrest, rfl⟩ | ⟨cause, herror, -⟩)
      · obtain rfl := Except.ok.inj hs'
        exact ⟨(rest, last), hrest, rfl⟩
      · cases herror
  · next cause hcall => simp [hcall]
  · next e hrefused hcall =>
    refine iff_of_false (by simp) ?_
    rintro (⟨s', rest, hok, -⟩ | ⟨cause, herror, -⟩)
    · rw [hcall] at hok
      cases hok
    · rw [hcall] at herror
      exact hrefused cause (Except.error.inj herror)

/-- **What every accepted call preserves, attempts preserve.** The induction is on
the calls still to come; `done` are those accepted before. -/
theorem attempts_induction {P : List κ → σ → Prop}
    (hstep : ∀ done s call s', P done s → (step call s).outcome = .ok s' → P (done ++ [call]) s')
    {calls accepted : List κ} {s last : σ} (h : attempts step calls s = .ok (accepted, last))
    (done : List κ) (hs : P done s) : P (done ++ accepted) last := by
  induction calls generalizing done s accepted with
  | nil =>
    obtain ⟨rfl, rfl⟩ := Prod.mk.inj (Except.ok.inj h)
    rwa [List.append_nil]
  | cons call calls ih =>
    rcases attempts_cons_eq_ok.mp h with ⟨s', rest, hcall, hrest, rfl⟩ | ⟨_, -, hrest⟩
    · have := ih hrest (done ++ [call]) (hstep done s call s' hs hcall)
      rwa [List.append_assoc] at this
    -- A refused call leaves the state as it was.
    · exact ih hrest done hs

/-- No more calls are accepted than were made. -/
theorem length_le_of_attempts {calls accepted : List κ} {s last : σ}
    (h : attempts step calls s = .ok (accepted, last)) : accepted.length ≤ calls.length := by
  induction calls generalizing s accepted with
  | nil =>
    obtain ⟨rfl, -⟩ := Prod.mk.inj (Except.ok.inj h)
    exact Nat.le_refl 0
  | cons call calls ih =>
    rcases attempts_cons_eq_ok.mp h with ⟨s', rest, -, hrest, rfl⟩ | ⟨_, -, hrest⟩
    · exact Nat.succ_le_succ (ih hrest)
    · exact Nat.le_succ_of_le (ih hrest)

/-- If a call was refused before the others, then not all of them are accepted. -/
theorem ne_cons_of_attempts {calls accepted : List κ} {s last : σ}
    (h : attempts step calls s = .ok (accepted, last)) (call : κ) : accepted ≠ call :: calls := by
  intro heq
  have hlen := length_le_of_attempts h
  rw [heq, List.length_cons] at hlen
  omega

/-- **Attempts come to an end** if every call is accepted or refused. The invariant may speak
of the calls still to come. -/
theorem exists_attempts {I : List κ → σ → Prop}
    (hstep : ∀ call calls s, I (call :: calls) s →
      (∃ s', (step call s).outcome = .ok s' ∧ I calls s') ∨
        ∃ cause, (step call s).outcome = .error (.refused cause) ∧ I calls s)
    {calls : List κ} {s : σ} (hs : I calls s) :
    ∃ accepted last, attempts step calls s = .ok (accepted, last) := by
  induction calls generalizing s with
  | nil => exact ⟨[], s, rfl⟩
  | cons call calls ih =>
    rcases hstep call calls s hs with ⟨s', hcall, hs'⟩ | ⟨cause, hcall, hs'⟩
    · obtain ⟨accepted, last, hrest⟩ := ih hs'
      exact ⟨_, _, attempts_cons_eq_ok.mpr (Or.inl ⟨s', accepted, hcall, hrest, rfl⟩)⟩
    · obtain ⟨accepted, last, hrest⟩ := ih hs'
      exact ⟨_, _, attempts_cons_eq_ok.mpr (Or.inr ⟨cause, hcall, hrest⟩)⟩

/-- An accepted call is the first of the accepted ones. -/
theorem attempts_cons_of_ok {call : κ} {calls accepted : List κ} {s s' last : σ}
    (hcall : (step call s).outcome = .ok s')
    (h : attempts step calls s' = .ok (accepted, last)) :
    attempts step (call :: calls) s = .ok (call :: accepted, last) :=
  attempts_cons_eq_ok.mpr (Or.inl ⟨s', accepted, hcall, h, rfl⟩)

end Run

namespace Node

variable {β : Type} [BaseAxis β]

/-- Add a range, as it is described, to a node. -/
def addRange (r : RangeSpec) (n : Node β) : Run (Node β) := n.appendRange r.size r.bins

/-- **Ranges tried on a node**, one after the other. -/
def tryRanges (n : Node β) (calls : List RangeSpec) : Outcome (List RangeSpec × Node β) :=
  Run.attempts addRange calls n

end Node

namespace Dimension

/-- **Ranges that are all added are all accepted.** -/
theorem tryRanges_of_addRanges {rs : List RangeSpec} {n m : Node Axis}
    (h : (addRanges n rs).outcome = .ok m) : n.tryRanges rs = .ok (rs, m) := by
  induction rs generalizing n with
  | nil =>
    obtain rfl : n = m := Except.ok.inj h
    rfl
  | cons r rs ih =>
    rw [addRanges] at h
    obtain ⟨n', hr, hrs⟩ := Run.outcome_bind_eq_ok.mp h
    have hr : (Node.addRange r n).outcome = .ok n' := hr
    exact Run.attempts_cons_of_ok hr (ih hrs)

end Dimension

end Binning
