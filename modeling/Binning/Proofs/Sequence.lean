import Binning.Proofs.Outcome
import Mathlib.Data.List.Forall2

/-!
# Computations in turn

Computations that are done one after the other succeed together, and then there is one
value for each of them (`Binning.Outcome.mapM_eq_ok`). Otherwise one of them is the first
that fails, and its failure is the failure of all (`Binning.Outcome.mapM_eq_error`).

Runs that are done in turn (`Binning.Run.inTurn`) also report in turn: what they report
are the events of all of them, or of those up to the first that fails
(`Binning.Run.events_inTurn_of_ok`, `Binning.Run.events_inTurn_of_error`).
-/

namespace Binning

/-- What corresponds to the element at an index. -/
theorem exists_getElem?_of_forall₂ {α β : Type} {R : α → β → Prop} {as : List α} {bs : List β}
    (h : List.Forall₂ R as bs) {i : Nat} {b : β} (hb : bs[i]? = some b) :
    ∃ a, as[i]? = some a ∧ R a b := by
  induction h generalizing i with
  | nil => simp at hb
  | cons hab _ ih =>
    cases i with
    | zero =>
      obtain rfl := Option.some.inj hb
      exact ⟨_, rfl, hab⟩
    | succ i => exact ih hb

/-- What is true of all elements before an index, for the first and for the others. -/
theorem forall_mem_take_succ {α : Type} {P : α → Prop} {a : α} {as : List α} {i : Nat} :
    (∀ x ∈ (a :: as).take (i + 1), P x) ↔ P a ∧ ∀ x ∈ as.take i, P x := by
  rw [List.take_succ_cons, List.forall_mem_cons]

namespace Outcome

variable {α β : Type} {f : α → Outcome β}

/-- **Results that are computed one by one** correspond to what they are computed from. -/
theorem mapM_eq_ok {as : List α} {bs : List β} :
    as.mapM f = .ok bs ↔ List.Forall₂ (fun a b => f a = .ok b) as bs := by
  induction as generalizing bs with
  | nil =>
    rw [List.mapM_nil, pure_eq_ok, List.forall₂_nil_left_iff]
    exact eq_comm
  | cons a as ih =>
    rw [List.mapM_cons, bind_eq_ok, List.forall₂_cons_left_iff]
    refine exists_congr fun b => ?_
    rw [bind_eq_ok]
    constructor
    · rintro ⟨hb, bs', hbs, hlast⟩
      exact ⟨bs', hb, ih.mp hbs, (pure_eq_ok.mp hlast).symm⟩
    · rintro ⟨bs', hb, hbs, rfl⟩
      exact ⟨hb, bs', ih.mpr hbs, rfl⟩

/-- Results can be computed one by one if each of them can. -/
theorem exists_mapM_eq_ok {as : List α} :
    (∃ bs, as.mapM f = .ok bs) ↔ ∀ a ∈ as, ∃ b, f a = .ok b := by
  induction as with
  | nil => exact iff_of_true ⟨[], rfl⟩ (by simp)
  | cons a as ih =>
    rw [List.forall_mem_cons, ← ih]
    constructor
    · rintro ⟨bs, h⟩
      rw [mapM_eq_ok, List.forall₂_cons_left_iff] at h
      obtain ⟨b, bs', hb, hbs, -⟩ := h
      exact ⟨⟨b, hb⟩, bs', mapM_eq_ok.mpr hbs⟩
    · rintro ⟨⟨b, hb⟩, bs, hbs⟩
      exact ⟨b :: bs, mapM_eq_ok.mpr (.cons hb (mapM_eq_ok.mp hbs))⟩

/-- **The first failure** is the failure of all. -/
theorem mapM_eq_error {as : List α} {e : Failure} :
    as.mapM f = .error e ↔
      ∃ (i : Nat) (a : α), as[i]? = some a ∧ f a = .error e ∧
        ∀ before ∈ as.take i, ∃ b, f before = .ok b := by
  induction as with
  | nil => exact iff_of_false (by simp [pure, Except.pure]) (by simp)
  | cons a as ih =>
    rw [List.mapM_cons]
    constructor
    · intro h
      cases hfirst : f a with
      | error e' =>
        rw [hfirst] at h
        obtain rfl := Except.error.inj h
        exact ⟨0, a, rfl, hfirst, by simp⟩
      | ok b =>
        rw [hfirst, ok_bind] at h
        cases hrest : as.mapM f with
        | ok bs =>
          rw [hrest] at h
          cases h
        | error e' =>
          rw [hrest] at h
          obtain rfl := Except.error.inj h
          obtain ⟨i, a', ha', he, hbefore⟩ := ih.mp hrest
          exact ⟨i + 1, a', ha', he, forall_mem_take_succ.mpr ⟨⟨b, hfirst⟩, hbefore⟩⟩
    · rintro ⟨i, a', ha', he, hbefore⟩
      cases i with
      | zero =>
        obtain rfl := Option.some.inj ha'
        rw [he, error_bind]
      | succ i =>
        obtain ⟨⟨b, hb⟩, hbefore⟩ := forall_mem_take_succ.mp hbefore
        rw [hb, ok_bind, ih.mpr ⟨i, a', ha', he, hbefore⟩, error_bind]

end Outcome

namespace Run

variable {α β : Type}

/-- A run with a function of its value. -/
def onValue (f : α → β) (r : Run α) : Run β := ⟨r.events, r.outcome.map f⟩

/-- A value that is changed in the end. -/
theorem bind_pure_eq_onValue (r : Run α) (f : α → β) :
    (r >>= fun a => (pure (f a) : Run β)) = r.onValue f := by
  change andThen r _ = r.onValue f
  obtain ⟨events, outcome⟩ := r
  cases outcome with
  | error e => rfl
  | ok a => exact congrArg (Run.mk · (.ok (f a))) (List.append_nil events)

theorem onValue_onValue {γ : Type} (f : α → β) (g : β → γ) (r : Run α) :
    (r.onValue f).onValue g = r.onValue fun a => g (f a) := by
  obtain ⟨events, outcome⟩ := r
  cases outcome with
  | error e => rfl
  | ok a => rfl

theorem onValue_eq_ok {f : α → β} {r : Run α} {b : β} :
    (r.onValue f).outcome = .ok b ↔ ∃ a, r.outcome = .ok a ∧ f a = b := Except.map_eq_ok

theorem onValue_eq_error {f : α → β} {r : Run α} {e : Failure} :
    (r.onValue f).outcome = .error e ↔ r.outcome = .error e := by
  obtain ⟨events, outcome⟩ := r
  cases outcome with
  | error e' => simp [onValue, Except.map]
  | ok a => simp [onValue, Except.map]

/-- **Runs in turn**, up to the first that fails. -/
def inTurn : List (Run α) → Run (List α)
  | [] => return []
  | r :: rs => do
    let a ← r
    let as ← inTurn rs
    return a :: as

/-- How runs in turn end. -/
theorem outcome_inTurn (rs : List (Run α)) : (inTurn rs).outcome = rs.mapM Run.outcome := by
  induction rs with
  | nil => rfl
  | cons r rs ih =>
    rw [List.mapM_cons, ← ih, inTurn, outcome_bind]
    refine congrArg r.outcome.bind (funext fun a => ?_)
    rw [outcome_bind]
    rfl

theorem events_inTurn_cons_of_ok {r : Run α} {a : α} (h : r.outcome = .ok a) (rs : List (Run α)) :
    (inTurn (r :: rs)).events = r.events ++ (inTurn rs).events := by
  rw [inTurn, events_bind, h]
  dsimp only
  rw [events_bind]
  split <;> simp

theorem events_inTurn_cons_of_error {r : Run α} {e : Failure} (h : r.outcome = .error e)
    (rs : List (Run α)) : (inTurn (r :: rs)).events = r.events := by
  rw [inTurn, events_bind, h]
  exact List.append_nil r.events

/-- **Runs that all succeed** report one after the other. -/
theorem events_inTurn_of_ok {rs : List (Run α)} (h : ∀ r ∈ rs, ∃ a, r.outcome = .ok a) :
    (inTurn rs).events = rs.flatMap Run.events := by
  induction rs with
  | nil => rfl
  | cons r rs ih =>
    obtain ⟨⟨a, ha⟩, hrest⟩ := List.forall_mem_cons.mp h
    rw [events_inTurn_cons_of_ok ha, ih hrest, List.flatMap_cons]

/-- **Runs up to the first that fails** report one after the other, and the others report
nothing. -/
theorem events_inTurn_of_error {rs : List (Run α)} {i : Nat} {r : Run α} {e : Failure}
    (hr : rs[i]? = some r) (he : r.outcome = .error e)
    (hbefore : ∀ before ∈ rs.take i, ∃ a, before.outcome = .ok a) :
    (inTurn rs).events = (rs.take (i + 1)).flatMap Run.events := by
  induction rs generalizing i with
  | nil => simp at hr
  | cons r' rs ih =>
    cases i with
    | zero =>
      obtain rfl := Option.some.inj hr
      rw [events_inTurn_cons_of_error he]
      simp
    | succ i =>
      obtain ⟨⟨a, ha⟩, hbefore⟩ := forall_mem_take_succ.mp hbefore
      rw [events_inTurn_cons_of_ok ha, ih hr hbefore, List.take_succ_cons, List.flatMap_cons]

/-- Runs in turn with functions of their values. -/
theorem inTurn_map_onValue (f : α → β) (rs : List (Run α)) :
    inTurn (rs.map (onValue f)) = (inTurn rs).onValue (List.map f) := by
  induction rs with
  | nil => rfl
  | cons r rs ih =>
    rw [List.map_cons, inTurn, inTurn, ih]
    obtain ⟨events, outcome⟩ := r
    cases outcome with
    | error e => rfl
    | ok a =>
      obtain ⟨events', outcome'⟩ := inTurn rs
      cases outcome' with
      | error e => rfl
      | ok as => rfl

end Run

end Binning
