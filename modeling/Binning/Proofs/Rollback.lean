import Binning.Node.InPlace
import Binning.Proofs.Growth

/-!
# A refused addition leaves no trace

Additions in place (`Binning.Node.appendAllInPlace`) work on one tree, and the first range of
a node writes to it before it is known whether the child fits. A leak there would widen the
range that later attempts are measured against. There is none:

* a first range that is rejected has written the bounds of the node, and it writes back the old
  ones, which are all that it has changed (`Binning.Node.appendRangeInPlace_apply`); only an
  overflow leaves a rebased node;
* so an addition in place is *faithful* (`Binning.InPlace.Faithful`): it ends as
  `Binning.Node.append` does, with the same events, and leaves the node which that gives, and if
  it is refused it leaves the node as it was;
* this carries over from a node to the tree around it (`Binning.InPlace.Faithful.atPath`), since a
  child that is put back as it was leaves its parent as it was.

The result is `Binning.Node.appendAllInPlace_no_trace`: a call that is refused leaves the whole
tree as it was, and the calls that are not refused do the same without the refused ones.
-/

namespace Binning

open Outcome

/-! ### Runs in a row -/

namespace Run

/-- Runs can be put together either way. -/
theorem andThen_assoc {α β γ : Type} (r : Run α) (f : α → Run β) (g : β → Run γ) :
    andThen (andThen r f) g = andThen r fun a => andThen (f a) g := by
  obtain ⟨es, o⟩ := r
  cases o with
  | error e => rfl
  | ok a =>
    unfold andThen
    cases hf : (f a).outcome with
    | error e => simp only [hf]
    | ok b => simp only [hf, List.append_assoc]

instance : LawfulMonad Run :=
  LawfulMonad.mk' Run
    (fun r => by
      obtain ⟨es, o⟩ := r
      cases o with
      | error e => rfl
      | ok a => exact congrArg (Run.mk · (.ok a)) es.append_nil)
    (fun _ _ => rfl) andThen_assoc

end Run

/-! ### What is left -/

/-- A computation that reports nothing more. -/
theorem Edit.append_nil {β α : Type} (es : List Event) (o : Outcome α) (n : Node β) :
    (⟨⟨es ++ [], o⟩, n⟩ : Edit β α) = ⟨⟨es, o⟩, n⟩ := by
  rw [List.append_nil]

/-- What is left is handed back. -/
def Edit.settled {β α : Type} (e : Edit β α) : Run (Node β) := e.run >>= fun _ => pure e.left

namespace InPlace

variable {β α γ : Type}

theorem look_bind (f : Node β → InPlace β α) (n : Node β) : (look >>= f) n = f n n := rfl

/-- A failure is not answered, and the node stays as it was left. -/
theorem ofRun_bind (r : Run α) (f : α → InPlace β γ) (n : Node β) :
    (ofRun r >>= f) n = match r.outcome with
      | .ok a => ⟨⟨r.events ++ (f a n).run.events, (f a n).run.outcome⟩, (f a n).left⟩
      | .error e => ⟨⟨r.events, .error e⟩, n⟩ := rfl

end InPlace

namespace Node

open InPlace

variable {β : Type}

/-- A node is put together again from its parts. -/
theorem mk_self (n : Node β) : (⟨n.base, n.grouping, n.children⟩ : Node β) = n := by
  cases n
  rfl

variable [BaseAxis β]

/-- **The bounds that are written are those of the parent** in which the next range is placed. -/
theorem withBounds_of_planRange {n : Node β} {size : Int} {bins : Option Int} {p : Placement}
    (h : (n.planRange size bins).outcome = .ok p) :
    (if n.isLeaf then n.grouping.withBounds p.parent.bounds else n.grouping) = p.parent := by
  unfold planRange at h
  split at h
  · split at h
    · cases h
    · next base _ =>
      obtain ⟨p', hplace, h⟩ := Run.outcome_bind_eq_ok.mp h
      obtain ⟨_, -, h⟩ := Run.outcome_bind_eq_ok.mp h
      obtain rfl : p' = p := Except.ok.inj h
      rw [(n.place_gives base size bins).eq_of_ok hplace, placed_parent]
      split <;> rfl
  · cases h

/-- A range is placed, then staged, and then added unless it is rejected. -/
theorem appendRange_eq_planRange (n : Node β) (size : Int) (bins : Option Int) :
    n.appendRange size bins = (do
      let p ← n.planRange size bins
      let staged ← n.stage p.parent size p.skip p.low (some p.high)
      n.settle staged) := by
  unfold appendRange stageRange planRange
  by_cases hsize : 1 ≤ size
  · rw [if_pos hsize, if_pos hsize]
    cases n.base with
    | none => rfl
    | some base => simp only [bind_assoc, pure_bind]
  · rw [if_neg hsize, if_neg hsize]
    rfl

/-- A child that cannot be added is staged all the same. -/
theorem stage_ne_refused {n : Node β} {parent : Grouping} {size skip low : Int} {high : Option Int}
    {cause : BinningError} : n.stage parent size skip low high ≠ .error (.refused cause) := by
  intro h
  unfold stage at h
  split at h
  · cases h
  · split at h
    · have hmade := (Grouping.make_gives _ _ _ _ _ _).refused_of_bind h
      have hstop := (Grouping.stop_gives _).refused_of_bind hmade
      have hlimit := (Grouping.stop_gives _).refused_of_bind hstop
      split at hlimit
      · cases hlimit
      · cases hlimit
    · cases h

/-- **The first range rebases the node**, and everything goes on from there. -/
theorem rebase_bind {α : Type} {n : Node β} {size : Int} {bins : Option Int} {p : Placement}
    (h : (n.planRange size bins).outcome = .ok p) (x : InPlace β α) :
    (do
      if n.isLeaf then writeBounds p.parent.bounds
      x : InPlace β α) n = x { n with grouping := p.parent } := by
  rw [← withBounds_of_planRange h]
  split
  · rfl
  · exact congrArg x n.mk_self.symm

/-- **The bounds that are written back** are all that was changed. -/
theorem withBounds_bounds_of_planRange {n : Node β} {size : Int} {bins : Option Int} {p : Placement}
    (h : (n.planRange size bins).outcome = .ok p) :
    { n with grouping := p.parent.withBounds n.grouping.bounds } = n := by
  have hback : p.parent.withBounds n.grouping.bounds = n.grouping := by
    rw [← withBounds_of_planRange h]
    split <;> rfl
  rw [hback, mk_self]

/-- **What becomes of a range in place.** Nothing is written before it has its place, and nothing
is left of it if it is rejected. -/
theorem appendRangeInPlace_apply (n : Node β) (size : Int) (bins : Option Int) :
    appendRangeInPlace size bins n =
      match (n.planRange size bins).outcome with
      | .ok p => (match n.stage p.parent size p.skip p.low (some p.high) with
        | .ok (.accepted _ child) =>
          ⟨⟨(n.planRange size bins).events, .ok child⟩,
            { n with grouping := p.parent, children := n.children ++ [child] }⟩
        | .ok (.rejected cause _) =>
          ⟨⟨(n.planRange size bins).events, .error (.refused cause)⟩, n⟩
        | .error e => ⟨⟨(n.planRange size bins).events, .error e⟩, { n with grouping := p.parent }⟩)
      | .error e => ⟨⟨(n.planRange size bins).events, .error e⟩, n⟩ := by
  rw [appendRangeInPlace, look_bind, ofRun_bind]
  cases hplan : (n.planRange size bins).outcome with
  | error e => rfl
  | ok p =>
    have hstage : stage ⟨n.base, p.parent, n.children⟩ p.parent size p.skip p.low (some p.high) =
        n.stage p.parent size p.skip p.low (some p.high) := rfl
    dsimp only
    rw [rebase_bind hplan, settleInPlace, look_bind, ofRun_bind, Run.outcome_ofOutcome, hstage]
    cases n.stage p.parent size p.skip p.low (some p.high) with
    | error e => exact Edit.append_nil _ _ _
    | ok staged =>
      cases staged with
      | accepted parent child => exact Edit.append_nil _ _ _
      | rejected cause child =>
        exact (Edit.append_nil _ _ _).trans
          (congrArg (Edit.mk _) (withBounds_bounds_of_planRange hplan))

/-- An accepted child has the parent for which it was staged. -/
theorem parent_of_stage {n child : Node β} {parent parent' : Grouping} {size skip low : Int}
    {high : Option Int} (h : n.stage parent size skip low high = .ok (.accepted parent' child)) :
    parent' = parent := by
  unfold stage at h
  split at h
  · cases h
  · split at h
    · obtain ⟨g, -, h⟩ := bind_eq_ok.mp h
      obtain ⟨childEnd, -, h⟩ := bind_eq_ok.mp h
      obtain ⟨parentEnd, -, h⟩ := bind_eq_ok.mp h
      split at h
      · cases h
        rfl
      · cases h
    · cases h

end Node

/-! ### Faithful computations in place -/

namespace InPlace

variable {β : Type}

/-- **A computation in place is faithful** to a function on nodes: it ends in the same way, with
the same events, and leaves the node that the function gives; and if it is refused, it leaves the
node as it was. -/
structure Faithful (x : InPlace β (Node β)) (f : Node β → Run (Node β)) : Prop where
  settled_eq : ∀ n, f n = (x n).settled
  left_eq : ∀ n cause, (x n).run.outcome = .error (.refused cause) → (x n).left = n

/-- **Writing to a child is faithful.** A child that is put back as it was leaves its parent as
it was. -/
theorem Faithful.atPath {x : InPlace β (Node β)} {f : Node β → Run (Node β)} (h : Faithful x f)
    (path : List Nat) : Faithful (atPath x path) (Node.updateAt f path) := by
  induction path with
  | nil => exact h
  | cons i path ih =>
    constructor
    · intro n
      unfold Node.updateAt InPlace.atPath below
      cases hc : n.children[i]? with
      | none => rfl
      | some c =>
        dsimp only
        rw [ih.settled_eq c, Edit.settled, Edit.settled, bind_assoc]
        rfl
    · intro n cause hrefused
      unfold InPlace.atPath below at hrefused ⊢
      cases hc : n.children[i]? with
      | none => rfl
      | some c =>
        rw [hc] at hrefused
        dsimp only at hrefused ⊢
        rw [ih.left_eq c cause hrefused]
        obtain ⟨hi, rfl⟩ := List.getElem?_eq_some_iff.mp hc
        rw [List.set_getElem_self, Node.mk_self]

end InPlace

namespace Node

open InPlace

variable {β : Type} [BaseAxis β]

/-- A child is added in place. -/
theorem faithful_appendChild (size skip low : Int) (high : Option Int) :
    Faithful (β := β) (appendChildInPlace size skip low high)
      (fun n => n.appendChild size skip low high) := by
  constructor
  · intro n
    rw [appendChildInPlace, look_bind, ofRun_bind, Run.outcome_ofOutcome, appendChild]
    cases hs : n.stage n.grouping size skip low high with
    | error e => rfl
    | ok staged =>
      cases staged with
      | accepted parent child =>
        rw [parent_of_stage hs]
        rfl
      | rejected cause child => rfl
  · intro n cause hrefused
    rw [appendChildInPlace, look_bind, ofRun_bind, Run.outcome_ofOutcome] at hrefused ⊢
    cases hs : n.stage n.grouping size skip low high with
    | error e => rfl
    | ok staged =>
      cases staged with
      | accepted parent child =>
        rw [hs] at hrefused
        cases hrefused
      | rejected cause child => rfl

/-- A range is added in place. -/
theorem faithful_appendRange (size : Int) (bins : Option Int) :
    Faithful (β := β) (appendRangeInPlace size bins) (fun n => n.appendRange size bins) := by
  constructor
  · intro n
    rw [appendRange_eq_planRange, appendRangeInPlace_apply]
    obtain ⟨es, o⟩ := n.planRange size bins
    cases o with
    | error e => rfl
    | ok p =>
      change Run.andThen ⟨es, .ok p⟩ _ = _
      unfold Run.andThen
      dsimp only
      cases hs : n.stage p.parent size p.skip p.low (some p.high) with
      | error e => exact congrArg (Run.mk · (.error e)) (List.append_nil es)
      | ok staged =>
        cases staged with
        | accepted parent child =>
          rw [parent_of_stage hs]
          rfl
        | rejected cause child =>
          exact congrArg (Run.mk · (.error (.refused cause))) (List.append_nil es)
  · intro n cause hrefused
    rw [appendRangeInPlace_apply] at hrefused ⊢
    split at hrefused
    · split at hrefused
      · cases hrefused
      · rfl
      · next e hs =>
        -- Staging a child fails in no other way than by an overflow.
        obtain rfl : e = .refused cause := Except.error.inj hrefused
        exact absurd hs stage_ne_refused
    · rfl

/-- **Additions in place are faithful**, wherever they are made. -/
theorem faithful_appendAt (path : List Nat) (a : Append) :
    Faithful (β := β) (appendAtInPlace path a) (fun t => t.appendAt path a) := by
  refine Faithful.atPath ?_ path
  cases a with
  | child size skip low high => exact faithful_appendChild size skip low high
  | range size bins => exact faithful_appendRange size bins

/-! ### Calls in a row -/

omit [BaseAxis β] in
/-- The calls that were not refused, by their answers. -/
def keptCalls (calls : List (List Nat × Append)) (answers : List (Except BinningError (Node β))) :
    List (List Nat × Append) :=
  ((calls.zip answers).filter fun c => c.2.isOk).map Prod.fst

section Calls

variable {call : List Nat × Append} {calls : List (List Nat × Append)} {t last : Node β}
  {answers : List (Except BinningError (Node β))}

/-- **The first of several calls** is answered, and the others go on with the tree that it has
left. -/
theorem appendAllInPlace_cons_eq_ok :
    appendAllInPlace (call :: calls) t = .ok (answers, last) ↔ ∃ answer rest,
      (appendAtInPlace call.1 call.2 t).run.outcome = answer.mapError Failure.refused ∧
      appendAllInPlace calls (appendAtInPlace call.1 call.2 t).left = .ok (rest, last) ∧
      answers = answer :: rest := by
  rw [appendAllInPlace]
  split
  · next child hcall =>
    rw [hcall, bind_eq_ok]
    constructor
    · rintro ⟨⟨rest, last'⟩, hrest, heq⟩
      obtain ⟨rfl, rfl⟩ := Prod.mk.inj (pure_eq_ok.mp heq)
      exact ⟨.ok child, rest, rfl, hrest, rfl⟩
    · rintro ⟨answer, rest, hanswer, hrest, rfl⟩
      cases answer with
      | ok c =>
        obtain rfl : child = c := Except.ok.inj hanswer
        exact ⟨(rest, last), hrest, rfl⟩
      | error cause => cases hanswer
  · next cause hcall =>
    rw [hcall, bind_eq_ok]
    constructor
    · rintro ⟨⟨rest, last'⟩, hrest, heq⟩
      obtain ⟨rfl, rfl⟩ := Prod.mk.inj (pure_eq_ok.mp heq)
      exact ⟨.error cause, rest, rfl, hrest, rfl⟩
    · rintro ⟨answer, rest, hanswer, hrest, rfl⟩
      cases answer with
      | ok c => cases hanswer
      | error cause' =>
        obtain rfl : cause = cause' := Failure.refused.inj (Except.error.inj hanswer)
        exact ⟨(rest, last), hrest, rfl⟩
  · next e hrefused hcall =>
    refine iff_of_false (by simp) ?_
    rintro ⟨answer, rest, hanswer, -, -⟩
    rw [hcall] at hanswer
    cases answer with
    | ok c => cases hanswer
    | error cause => exact hrefused cause (Except.error.inj hanswer)

/-- A call that is refused leaves the tree as it was. -/
theorem left_of_answer {cause : BinningError} (h : (appendAtInPlace call.1 call.2 t).run.outcome =
    (Except.error cause : Except BinningError (Node β)).mapError Failure.refused) :
    (appendAtInPlace call.1 call.2 t).left = t :=
  (faithful_appendAt call.1 call.2).left_eq t cause h

/-- **The calls before a call** are answered without it, and it finds the tree that they leave. -/
theorem appendAllInPlace_append {before after : List (List Nat × Append)}
    (h : appendAllInPlace (before ++ call :: after) t = .ok (answers, last)) :
    ∃ u answer, appendAllInPlace before t = .ok (answers.take before.length, u) ∧
      answers[before.length]? = some answer ∧
      (appendAtInPlace call.1 call.2 u).run.outcome = answer.mapError Failure.refused := by
  induction before generalizing t answers with
  | nil =>
    obtain ⟨answer, rest, hanswer, -, rfl⟩ := appendAllInPlace_cons_eq_ok.mp h
    exact ⟨t, answer, rfl, rfl, hanswer⟩
  | cons call' before ih =>
    obtain ⟨answer', rest, hanswer', hrest, rfl⟩ := appendAllInPlace_cons_eq_ok.mp h
    obtain ⟨u, answer, hbefore, hget, hanswer⟩ := ih hrest
    exact ⟨u, answer, appendAllInPlace_cons_eq_ok.mpr ⟨answer', _, hanswer', hbefore, rfl⟩, hget,
      hanswer⟩

/-- There is an answer to every call. -/
theorem length_of_appendAllInPlace (h : appendAllInPlace calls t = .ok (answers, last)) :
    answers.length = calls.length := by
  induction calls generalizing t answers with
  | nil =>
    obtain ⟨rfl, -⟩ := Prod.mk.inj (Except.ok.inj h)
    rfl
  | cons call calls ih =>
    obtain ⟨answer, rest, -, hrest, rfl⟩ := appendAllInPlace_cons_eq_ok.mp h
    exact congrArg Nat.succ (ih hrest)

/-- **Without the refused calls** the others have the same answers, and the tree is the same in
the end. -/
theorem appendAllInPlace_keptCalls (h : appendAllInPlace calls t = .ok (answers, last)) :
    appendAllInPlace (keptCalls calls answers) t = .ok (answers.filter Except.isOk, last) := by
  induction calls generalizing t answers with
  | nil =>
    obtain ⟨rfl, rfl⟩ := Prod.mk.inj (Except.ok.inj h)
    rfl
  | cons call calls ih =>
    obtain ⟨answer, rest, hanswer, hrest, rfl⟩ := appendAllInPlace_cons_eq_ok.mp h
    cases answer with
    | ok child =>
      exact appendAllInPlace_cons_eq_ok.mpr ⟨.ok child, _, hanswer, ih hrest, rfl⟩
    | error cause =>
      rw [left_of_answer hanswer] at hrest
      exact ih hrest

/-- **Calls in place do what attempts do**: the same calls are accepted, and the tree is the same
in the end. -/
theorem tryAppends_of_appendAllInPlace (h : appendAllInPlace calls t = .ok (answers, last)) :
    t.tryAppends calls = .ok (keptCalls calls answers, last) := by
  induction calls generalizing t answers with
  | nil =>
    obtain ⟨rfl, rfl⟩ := Prod.mk.inj (Except.ok.inj h)
    rfl
  | cons call calls ih =>
    obtain ⟨answer, rest, hanswer, hrest, rfl⟩ := appendAllInPlace_cons_eq_ok.mp h
    have hsettled := (faithful_appendAt call.1 call.2).settled_eq t
    cases answer with
    | ok child =>
      refine Run.attempts_cons_eq_ok.mpr (Or.inl ⟨_, _, ?_, ih hrest, rfl⟩)
      rw [hsettled]
      exact Run.outcome_bind_eq_ok.mpr ⟨child, hanswer, rfl⟩
    | error cause =>
      rw [left_of_answer hanswer] at hrest
      refine Run.attempts_cons_eq_ok.mpr (Or.inr ⟨cause, ?_, ih hrest⟩)
      rw [hsettled, Edit.settled, Run.outcome_bind, hanswer]
      rfl

/-- **Refused additions leave no trace.** For any tree and any additions in place to its nodes,
one after the other, none of which overflows: every call is answered with a child or an error,
and a call that is answered with an error leaves the whole tree as it was. Without the calls
that were refused, the others get the same answers, and the tree is the same in the end. It is
the tree that the accepted attempts make. -/
theorem appendAllInPlace_no_trace (h : appendAllInPlace calls t = .ok (answers, last)) :
    answers.length = calls.length ∧
    (∀ before call after, calls = before ++ call :: after → ∃ u answer,
      appendAllInPlace before t = .ok (answers.take before.length, u) ∧
      answers[before.length]? = some answer ∧
      (appendAtInPlace call.1 call.2 u).run.outcome = answer.mapError Failure.refused ∧
      ∀ cause, answer = .error cause → (appendAtInPlace call.1 call.2 u).left = u) ∧
    appendAllInPlace (keptCalls calls answers) t = .ok (answers.filter Except.isOk, last) ∧
    t.tryAppends calls = .ok (keptCalls calls answers, last) := by
  refine ⟨length_of_appendAllInPlace h, ?_, appendAllInPlace_keptCalls h,
    tryAppends_of_appendAllInPlace h⟩
  rintro before call after rfl
  obtain ⟨u, answer, hbefore, hget, hanswer⟩ := appendAllInPlace_append h
  refine ⟨u, answer, hbefore, hget, hanswer, ?_⟩
  rintro cause rfl
  exact left_of_answer hanswer

end Calls

/-- Five calls on a leaf that starts at bin `3` of ten. The first range is tried twice, and it is
rejected with five groups of two, which end at bin `11`; two calls below it are refused as well.
The two other calls make the same tree by themselves. -/
theorem appendAllInPlace_no_trace_leaf : ∃ (first second last : Node UnitAxis),
    appendAllInPlace [([], .range 2 (some 5)), ([], .range 2 (some 3)),
        ([0], .child 1 0 3 (some 20)), ([], .range 0 none), ([0], .range 3 (some 1))]
        ⟨some tenBins, ⟨1, 0, 3, 10, 10, by decide⟩, []⟩ =
      .ok ([.error (.containment 11 10), .ok first, .error (.containment 20 7),
        .error (.invalidGroupSize 0), .ok second], last) ∧
    appendAllInPlace [([], .range 2 (some 3)), ([0], .range 3 (some 1))]
        ⟨some tenBins, ⟨1, 0, 3, 10, 10, by decide⟩, []⟩ =
      .ok ([.ok first, .ok second], last) := by
  have hrun : appendAllInPlace [([], .range 2 (some 5)), ([], .range 2 (some 3)),
        ([0], .child 1 0 3 (some 20)), ([], .range 0 none), ([0], .range 3 (some 1))]
        (⟨some tenBins, ⟨1, 0, 3, 10, 10, by decide⟩, []⟩ : Node UnitAxis) =
      .ok ([.error (.containment 11 10), .ok ⟨some tenBins, ⟨2, 1, 1, 3, 4, by decide⟩, []⟩,
          .error (.containment 20 7), .error (.invalidGroupSize 0),
          .ok ⟨some tenBins, ⟨3, 1, 0, 1, 3, by decide⟩, []⟩],
        ⟨some tenBins, ⟨1, 1, 1, 10, 10, by decide⟩,
          [⟨some tenBins, ⟨2, 1, 0, 3, 4, by decide⟩,
            [⟨some tenBins, ⟨3, 1, 0, 1, 3, by decide⟩, []⟩]⟩]⟩) := by rfl
  exact ⟨_, _, _, hrun, (appendAllInPlace_no_trace hrun).2.2.1⟩

end Node

end Binning
