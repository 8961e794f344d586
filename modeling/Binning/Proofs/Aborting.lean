import Binning.Proofs.Rollback
import Binning.Proofs.Room

/-!
# Aborting and returning forms

Each addition has two forms: one hands an error back, and one reports what is wrong and aborts.
They are written apart, and the aborting one has more to do: it describes a node that the other
form does not look at, and it could do so before the node is as it was.

Both forms stage a child and then settle it, and it is the staging that decides. Whatever it ends
with (`Binning.Node.Stages`), the two ways to settle it agree (`Binning.Node.agrees_of_stages`):
they leave the same node, one aborts exactly where the other refuses, with the same error, and the
aborting form reports what the other does and then its diagnosis (`Binning.Node.Diagnosed`).

That the forms in place are the ones that run is part of the result,
`Binning.Node.appendOrAbort_agree`.
-/

namespace Binning

open Outcome

namespace Run

variable {α γ : Type}

/-- Runs go on alike if they do so with the value that is reached. -/
theorem bind_congr_of_ok {r : Run α} {f g : α → Run γ} (h : ∀ a, r.outcome = .ok a → f a = g a) :
    r >>= f = r >>= g := by
  obtain ⟨es, o⟩ := r
  cases o with
  | error e => rfl
  | ok a =>
    change andThen _ f = andThen _ g
    simp only [andThen, h a rfl]

end Run

/-- A computation in place goes on from what it leaves. -/
theorem InPlace.bind_apply {β α γ : Type} (x : InPlace β α) (f : α → InPlace β γ) (n : Node β) :
    (x >>= f) n = match (x n).run.outcome with
      | .ok a =>
        ⟨⟨(x n).run.events ++ (f a (x n).left).run.events, (f a (x n).left).run.outcome⟩,
          (f a (x n).left).left⟩
      | .error e => ⟨⟨(x n).run.events, .error e⟩, (x n).left⟩ := rfl

namespace Node

open InPlace

variable {β : Type} [BaseAxis β]

/-! ### Staging -/

/-- **A child that cannot be added**: it was not made, or it ends beyond its parent. -/
inductive Rejection : BinningError → Option (Node β) → Prop
  /-- There is no child. -/
  | unmade {cause : BinningError}
    (hcause : ∀ childEnd parentEnd, cause ≠ .containment childEnd parentEnd) :
    Rejection cause none
  /-- There is a child, and it ends where the error says. -/
  | beyond {childEnd parentEnd : Int} {child : Node β} (hleaf : child.children = [])
    (hstop : child.grouping.stop = .ok childEnd) :
    Rejection (.containment childEnd parentEnd) (some child)

/-- Staging fails only by an overflow. -/
theorem knownUnless_stage (n : Node β) (parent : Grouping) (size skip low : Int)
    (high : Option Int) : KnownUnless False (n.stage parent size skip low high) := by
  unfold stage
  split
  · exact knownUnless_pure _
  · split
    · refine (Grouping.make_gives _ _ _ _ _ _).knownUnless.bind fun g => ?_
      refine g.stop_gives.knownUnless.bind fun _ => parent.stop_gives.knownUnless.bind fun _ => ?_
      split
      · exact knownUnless_pure _
      · exact knownUnless_pure _
    · exact knownUnless_pure _

theorem rejection_of_stage {n : Node β} {parent : Grouping} {size skip low : Int}
    {high : Option Int} {cause : BinningError} {child : Option (Node β)}
    (h : n.stage parent size skip low high = .ok (.rejected cause child)) :
    Rejection cause child := by
  unfold stage at h
  split at h
  · cases h
    exact .unmade (by simp)
  · split at h
    · obtain ⟨g, -, h⟩ := bind_eq_ok.mp h
      obtain ⟨childEnd, hstop, h⟩ := bind_eq_ok.mp h
      obtain ⟨parentEnd, -, h⟩ := bind_eq_ok.mp h
      split at h
      · cases h
      · cases h
        exact .beyond rfl hstop
    · cases h
      exact .unmade (by simp)

/-- A range is placed, or it is refused and there is no child, unless it overflows. -/
theorem planRange_fails {n : Node β} {size : Int} {bins : Option Int} {e : Failure}
    (h : (n.planRange size bins).outcome = .error e) :
    e = .overflow ∨ ∃ cause, e = .refused cause ∧
      ∀ childEnd parentEnd, cause ≠ .containment childEnd parentEnd := by
  unfold planRange at h
  split at h
  · split at h
    · cases h
      exact Or.inr ⟨_, rfl, nofun⟩
    · next base _ =>
      rw [Run.outcome_bind, Run.outcome_liftM] at h
      rcases n.place_gives base size bins with hplace | hplace
      · rw [hplace] at h
        cases h
      · rw [hplace] at h
        cases h
        exact Or.inl rfl
  · cases h
    exact Or.inr ⟨_, rfl, nofun⟩

/-- **What a staging ends with**: a child, or a rejection that leaves the node as it was, unless
there is an overflow. -/
structure Stages (n : Node β) (staging : Edit β (Staged β)) : Prop where
  known : KnownUnless False staging.run.outcome
  accepted : ∀ parent child, staging.run.outcome = .ok (.accepted parent child) →
    staging.left = { n with grouping := parent }
  rejected : ∀ cause child, staging.run.outcome = .ok (.rejected cause child) →
    Rejection cause child ∧ staging.left = n

/-- Stage a child in place. -/
def stageChildInPlace (size skip low : Int) (high : Option Int) : InPlace β (Staged β) := do
  let n ← look
  ofRun (Run.ofOutcome (n.stage n.grouping size skip low high))

theorem stages_child (n : Node β) (size skip low : Int) (high : Option Int) :
    n.Stages (stageChildInPlace size skip low high n) where
  known := n.knownUnless_stage _ _ _ _ _
  accepted _ _ h := by
    rw [parent_of_stage h]
    exact n.mk_self.symm
  rejected _ _ h := ⟨rejection_of_stage h, rfl⟩

/-- **What becomes of the staging of a range.** Nothing is left of it if it is rejected. -/
theorem stageRangeInPlace_apply (n : Node β) (size : Int) (bins : Option Int) :
    stageRangeInPlace size bins n =
      match (n.planRange size bins).outcome with
      | .ok p => (match n.stage p.parent size p.skip p.low (some p.high) with
        | .ok (.accepted parent child) =>
          ⟨⟨(n.planRange size bins).events, .ok (.accepted parent child)⟩,
            { n with grouping := p.parent }⟩
        | .ok (.rejected cause child) =>
          ⟨⟨(n.planRange size bins).events, .ok (.rejected cause child)⟩, n⟩
        | .error e => ⟨⟨(n.planRange size bins).events, .error e⟩, { n with grouping := p.parent }⟩)
      | .error (.refused cause) =>
        ⟨⟨(n.planRange size bins).events, .ok (.rejected cause none)⟩, n⟩
      | .error e => ⟨⟨(n.planRange size bins).events, .error e⟩, n⟩ := by
  rw [stageRangeInPlace, look_bind, ofRun_bind, Run.caught]
  cases hplan : (n.planRange size bins).outcome with
  | error e =>
    cases e with
    | refused cause => exact Edit.append_nil _ _ _
    | _ => rfl
  | ok p =>
    have hstage : stage ⟨n.base, p.parent, n.children⟩ p.parent size p.skip p.low (some p.high) =
        n.stage p.parent size p.skip p.low (some p.high) := rfl
    dsimp only
    rw [rebase_bind hplan, look_bind, ofRun_bind, Run.outcome_ofOutcome, hstage]
    cases n.stage p.parent size p.skip p.low (some p.high) with
    | error e => exact Edit.append_nil _ _ _
    | ok staged =>
      cases staged with
      | accepted parent child => exact Edit.append_nil _ _ _
      | rejected cause child =>
        exact (Edit.append_nil _ _ _).trans
          (congrArg (Edit.mk _) (withBounds_bounds_of_planRange hplan))

theorem stages_range (n : Node β) (size : Int) (bins : Option Int) :
    n.Stages (stageRangeInPlace size bins n) := by
  rw [stageRangeInPlace_apply]
  cases hplan : (n.planRange size bins).outcome with
  | error e =>
    rcases planRange_fails hplan with rfl | ⟨cause, rfl, hcause⟩
    · exact ⟨.inr (.inl rfl), nofun, nofun⟩
    · refine ⟨.inl ⟨_, rfl⟩, nofun, fun cause' child h => ?_⟩
      cases h
      exact ⟨.unmade hcause, rfl⟩
  | ok p =>
    have hknown := n.knownUnless_stage p.parent size p.skip p.low (some p.high)
    dsimp only
    cases hs : n.stage p.parent size p.skip p.low (some p.high) with
    | error e =>
      rw [hs] at hknown
      obtain ⟨_, h⟩ | h | ⟨-, h⟩ := hknown
      · cases h
      · exact ⟨.inr (.inl h), nofun, nofun⟩
      · exact h.elim
    | ok staged =>
      cases staged with
      | accepted parent child =>
        refine ⟨.inl ⟨_, rfl⟩, fun parent' child' h => ?_, nofun⟩
        cases h
        rw [parent_of_stage hs]
      | rejected cause child =>
        refine ⟨.inl ⟨_, rfl⟩, nofun, fun cause' child' h => ?_⟩
        cases h
        exact ⟨rejection_of_stage hs, rfl⟩

/-! ### Settling -/

omit [BaseAxis β] in
/-- Put a staged child into the node; a rejected child is refused. -/
def settleOrRefuseInPlace : Staged β → InPlace β (Node β)
  | .accepted _ child => pushInPlace child
  | .rejected cause _ => fail (.refused cause)

theorem appendChildInPlace_eq_settle (n : Node β) (size skip low : Int) (high : Option Int) :
    appendChildInPlace size skip low high n =
      (stageChildInPlace size skip low high >>= settleOrRefuseInPlace) n := rfl

theorem appendRangeInPlace_eq_settle (n : Node β) (size : Int) (bins : Option Int) :
    appendRangeInPlace size bins n = (stageRangeInPlace size bins >>= settleOrRefuseInPlace) n := by
  rw [appendRangeInPlace_apply, bind_apply, stageRangeInPlace_apply]
  cases (n.planRange size bins).outcome with
  | error e =>
    cases e with
    | refused cause => exact (Edit.append_nil _ _ _).symm
    | _ => rfl
  | ok p =>
    dsimp only
    cases n.stage p.parent size p.skip p.low (some p.high) with
    | error e => rfl
    | ok staged =>
      cases staged with
      | accepted parent child => exact (Edit.append_nil _ _ _).symm
      | rejected cause child => exact (Edit.append_nil _ _ _).symm

/-! ### What the aborting form reports -/

/-- The event that describes the parent of a child that cannot be added. -/
def parentEvent (cause : BinningError) (parent : String) : Event :=
  ⟨.error, cause.message ++ "\nParent:\n" ++ parent, []⟩

/-- The event that describes a child that ends beyond its parent. -/
def offendingEvent (child : String) : Event := ⟨.error, "Offending child:\n" ++ child, []⟩

/-- The event that describes a child that was added. -/
def appendedEvent (child : String) : Event := ⟨.info, "Appended axis node\n" ++ child, []⟩

/-- A node can always be described by its axis. -/
theorem exists_describe_onlyBase (n : Node β) :
    ∃ parent, n.describe DescribeOptions.full.onlyBase = .ok parent := by
  obtain ⟨base, g, children⟩ := n
  cases base <;> exact ⟨_, rfl⟩

theorem abort_apply {n : Node β} {parent : String}
    (h : n.describe DescribeOptions.full.onlyBase = .ok parent) (cause : BinningError)
    (child : Option (Node β)) :
    n.abort cause child = match child with
      | none => ⟨[parentEvent cause parent], .error (.aborted cause)⟩
      | some c => match c.describe DescribeOptions.full.withoutRanges with
        | .ok text => ⟨[parentEvent cause parent, offendingEvent text], .error (.aborted cause)⟩
        | .error e => ⟨[parentEvent cause parent], .error e⟩ := by
  unfold abort
  rw [h]
  cases child with
  | none => rfl
  | some c =>
    cases hc : c.describe DescribeOptions.full.withoutRanges with
    | error e => simp only [hc]; rfl
    | ok text => simp only [hc]; rfl

/-- Aborting fails. -/
theorem exists_abort_error (n : Node β) (cause : BinningError) (child : Option (Node β)) :
    ∃ e, (n.abort cause child).outcome = .error e := by
  obtain ⟨parent, hparent⟩ := n.exists_describe_onlyBase
  rw [abort_apply hparent]
  split
  · exact ⟨_, rfl⟩
  · split <;> exact ⟨_, rfl⟩

theorem reportLast_push (n child : Node β) (o : DescribeOptions) :
    (n.push child).reportLast o = match child.describe o with
      | .ok text => ⟨[appendedEvent text], .ok ()⟩
      | .error e => ⟨[], .error e⟩ := by
  have hlast : (n.push child).children.getLast? = some child := List.getLast?_concat
  rw [reportLast, hlast]
  cases hd : child.describe o with
  | error e => simp only [hd]; rfl
  | ok text => simp only [hd]; rfl

/-- An accepted child is reported when it is in its place. -/
theorem settleOrAbortInPlace_some (o : DescribeOptions) (parent : Grouping) (child n : Node β) :
    settleOrAbortInPlace (some o) (.accepted parent child) n =
      ⟨⟨((n.push child).reportLast o).events,
        ((n.push child).reportLast o).outcome.map fun _ => child⟩, n.push child⟩ := by
  have hpush : pushInPlace child n = ⟨⟨[], .ok child⟩, n.push child⟩ := rfl
  rw [settleOrAbortInPlace, bind_apply, hpush]
  dsimp only
  rw [look_bind, ofRun_bind]
  cases ((n.push child).reportLast o).outcome with
  | error e => rfl
  | ok _ => exact Edit.append_nil _ _ _

/-- **What the aborting form makes of an outcome of the other form**, and what it reports in
addition. -/
inductive Diagnosed (n : Node β) (report : Option DescribeOptions) :
    Outcome (Node β) → Outcome (Node β) → List Event → Prop
  /-- A child is added, and there are no options to report it with. -/
  | silent {child : Node β} (hreport : report = none) :
    Diagnosed n report (.ok child) (.ok child) []
  /-- A child is added and reported. -/
  | appended {child : Node β} {o : DescribeOptions} {text : String} (hreport : report = some o)
    (htext : child.describe o = .ok text) :
    Diagnosed n report (.ok child) (.ok child) [appendedEvent text]
  /-- A child is added, and there is no room to report it. -/
  | unreported {child : Node β} {o : DescribeOptions} (hreport : report = some o)
    (hfull : child.describe o = .error .tooLarge) :
    Diagnosed n report (.ok child) (.error .tooLarge) []
  /-- A child cannot be made. -/
  | unmade {cause : BinningError} {parent : String}
    (hcause : ∀ childEnd parentEnd, cause ≠ .containment childEnd parentEnd)
    (hparent : n.describe DescribeOptions.full.onlyBase = .ok parent) :
    Diagnosed n report (.error (.refused cause)) (.error (.aborted cause))
      [parentEvent cause parent]
  /-- A child ends beyond its parent. -/
  | beyond {childEnd parentEnd : Int} {child : Node β} {parent text : String}
    (hparent : n.describe DescribeOptions.full.onlyBase = .ok parent)
    (hstop : child.grouping.stop = .ok childEnd)
    (htext : child.describe DescribeOptions.full.withoutRanges = .ok text) :
    Diagnosed n report (.error (.refused (.containment childEnd parentEnd)))
      (.error (.aborted (.containment childEnd parentEnd)))
      [parentEvent (.containment childEnd parentEnd) parent, offendingEvent text]

/-- **An aborting form agrees with the form that hands its error back**: it aborts exactly where
the other refuses, leaves the same node, and reports what the other does and then its diagnosis. -/
structure Agrees (n : Node β) (report : Option DescribeOptions)
    (returning aborting : Edit β (Node β)) : Prop where
  aborted_iff : ∀ cause, aborting.run.outcome = .error (.aborted cause) ↔
    returning.run.outcome = .error (.refused cause)
  left_eq : aborting.left = returning.left
  diagnosed : ∃ told, Diagnosed n report returning.run.outcome aborting.run.outcome told ∧
    aborting.run.events = returning.run.events ++ told

theorem Diagnosed.agrees {n : Node β} {report : Option DescribeOptions}
    {returning aborting : Edit β (Node β)} {told : List Event}
    (h : Diagnosed n report returning.run.outcome aborting.run.outcome told)
    (hevents : aborting.run.events = returning.run.events ++ told)
    (hleft : aborting.left = returning.left) : Agrees n report returning aborting where
  aborted_iff cause := by
    generalize returning.run.outcome = o, aborting.run.outcome = o' at h
    cases h <;> simp
  left_eq := hleft
  diagnosed := ⟨told, h, hevents⟩

section Settling

variable {staging : InPlace β (Staged β)} {n : Node β} {report : Option DescribeOptions}

/-- A child that is accepted is put into the node in both forms, and then reported in one. -/
theorem agrees_of_accepted {parent : Grouping} {child : Node β}
    (h : (staging n).run.outcome = .ok (.accepted parent child))
    (hrun : ((staging >>= settleOrAbortInPlace report) n).run.outcome ≠ .error .overflow) :
    Agrees n report ((staging >>= settleOrRefuseInPlace) n)
      ((staging >>= settleOrAbortInPlace report) n) := by
  have hret : (staging >>= settleOrRefuseInPlace) n =
      ⟨⟨(staging n).run.events, .ok child⟩, (staging n).left.push child⟩ := by
    rw [bind_apply, h]
    exact Edit.append_nil _ _ _
  cases report with
  | none =>
    have hab : (staging >>= settleOrAbortInPlace none) n =
        ⟨⟨(staging n).run.events ++ [], .ok child⟩, (staging n).left.push child⟩ := by
      rw [bind_apply, h]
      rfl
    rw [hret, hab]
    exact Diagnosed.agrees (.silent rfl) rfl rfl
  | some o =>
    have hab : (staging >>= settleOrAbortInPlace (some o)) n =
        ⟨⟨(staging n).run.events ++ (((staging n).left.push child).reportLast o).events,
          (((staging n).left.push child).reportLast o).outcome.map fun _ => child⟩,
          (staging n).left.push child⟩ := by
      rw [bind_apply, h]
      dsimp only
      rw [settleOrAbortInPlace_some]
    rw [hret, hab, reportLast_push]
    rw [hab, reportLast_push] at hrun
    rcases child.knownUnless_describe o with ⟨text, htext⟩ | hover | ⟨hfull, -⟩
    · rw [htext]
      exact Diagnosed.agrees (.appended rfl htext) rfl rfl
    · rw [hover] at hrun
      exact absurd rfl hrun
    · rw [hfull]
      exact Diagnosed.agrees (.unreported rfl hfull) rfl rfl

/-- A child that is rejected is put into the node in neither form. -/
theorem agrees_of_rejected {cause : BinningError} {child : Option (Node β)}
    (h : (staging n).run.outcome = .ok (.rejected cause child)) (hleft : (staging n).left = n)
    (hrejection : Rejection cause child)
    (hrun : ((staging >>= settleOrAbortInPlace report) n).run.outcome ≠ .error .overflow) :
    Agrees n report ((staging >>= settleOrRefuseInPlace) n)
      ((staging >>= settleOrAbortInPlace report) n) := by
  have hret : (staging >>= settleOrRefuseInPlace) n =
      ⟨⟨(staging n).run.events, .error (.refused cause)⟩, n⟩ := by
    rw [bind_apply, h, hleft]
    exact Edit.append_nil _ _ _
  have hab : (staging >>= settleOrAbortInPlace report) n =
      ⟨⟨(staging n).run.events ++ (n.abort cause child).events, (n.abort cause child).outcome⟩,
        n⟩ := by
    rw [bind_apply, h, hleft]
    rfl
  obtain ⟨parent, hparent⟩ := n.exists_describe_onlyBase
  rw [hab, abort_apply hparent] at hrun ⊢
  rw [hret]
  cases hrejection with
  | unmade hcause => exact Diagnosed.agrees (.unmade hcause hparent) rfl rfl
  | beyond hleaf hstop =>
    next childEnd parentEnd c =>
    -- A child without children can be described, unless it overflows.
    obtain ⟨text, htext | hover⟩ := describe_gives hleaf
    · simp only [htext]
      exact Diagnosed.agrees (.beyond hparent hstop htext) rfl rfl
    · simp only [hover] at hrun
      exact absurd rfl hrun

/-- **The two ways to settle a staged child agree.** -/
theorem agrees_of_stages (hstages : n.Stages (staging n))
    (hrun : ((staging >>= settleOrAbortInPlace report) n).run.outcome ≠ .error .overflow) :
    Agrees n report ((staging >>= settleOrRefuseInPlace) n)
      ((staging >>= settleOrAbortInPlace report) n) := by
  -- The staging has not overflowed, since the aborting form would have.
  obtain ⟨staged, hstaged⟩ | hover | ⟨-, hfalse⟩ := hstages.known
  · cases staged with
    | accepted parent child => exact agrees_of_accepted hstaged hrun
    | rejected cause child =>
      obtain ⟨hrejection, hleft⟩ := hstages.rejected cause child hstaged
      exact agrees_of_rejected hstaged hleft hrejection hrun
  · rw [bind_apply, hover] at hrun
    exact absurd rfl hrun
  · exact hfalse.elim

/-! ### The forms that run -/

omit [BaseAxis β] in
theorem settled_bind {α γ : Type} (x : InPlace β α) (f : α → InPlace β γ) (n : Node β) :
    ((x >>= f) n).settled = (x n).run >>= fun a => (f a (x n).left).settled := by
  rw [Edit.settled, bind_apply]
  obtain ⟨⟨es, outcome⟩, left⟩ := x n
  cases outcome with
  | error e => rfl
  | ok a =>
    exact bind_assoc (⟨es, .ok a⟩ : Run α) (fun a => (f a left).run) fun _ => pure (f a left).left

variable (report) in
/-- **The aborting forms in place are those that run**, once what is left is handed back. -/
theorem settled_of_stages (hstages : n.Stages (staging n)) :
    ((staging >>= settleOrAbortInPlace report) n).settled = (do
      let staged ← (staging n).run
      let m ← n.settleOrAbort staged
      match report with
      | some o => m.reportLast o
      | none => pure ()
      return m) := by
  rw [settled_bind]
  refine Run.bind_congr_of_ok fun staged hstaged => ?_
  cases staged with
  | accepted parent child =>
    rw [hstages.accepted parent child hstaged]
    cases report with
    | none => rfl
    | some o =>
      rw [settleOrAbortInPlace_some, settleOrAbort, pure_bind, Edit.settled]
      change _ = (push { n with grouping := parent } child).reportLast o >>= fun _ =>
        pure (push { n with grouping := parent } child)
      obtain ⟨es, outcome⟩ := (push { n with grouping := parent } child).reportLast o
      cases outcome <;> rfl
  | rejected cause child =>
    obtain ⟨e, he⟩ := n.exists_abort_error cause child
    rw [(hstages.rejected cause child hstaged).2, settleOrAbort, Run.bind_of_error he]
    exact Run.bind_of_error he _

end Settling

section Forms

variable (n : Node β)

theorem settled_appendChildOrAbort (size skip low : Int) (high : Option Int)
    (report : Option DescribeOptions) :
    (appendChildOrAbortInPlace size skip low high report n).settled =
      n.appendChildOrAbort size skip low high report :=
  settled_of_stages report (n.stages_child size skip low high)

/-- A range is staged once it has its place. -/
theorem stageRange_eq_planRange (size : Int) (bins : Option Int) :
    n.stageRange size bins = (n.planRange size bins).caught >>= fun plan => match plan with
      | .error cause => pure (.rejected cause none)
      | .ok p => liftM (n.stage p.parent size p.skip p.low (some p.high)) := by
  unfold stageRange planRange
  by_cases hsize : 1 ≤ size
  · rw [if_pos hsize, if_pos hsize]
    cases n.base with
    | none => rfl
    | some base =>
      dsimp only
      rcases n.place_gives base size bins with hplace | hplace
      · rw [hplace]
        rfl
      · rw [hplace]
        rfl
  · rw [if_neg hsize, if_neg hsize]
    rfl

theorem run_stageRangeInPlace (size : Int) (bins : Option Int) :
    (stageRangeInPlace size bins n).run = n.stageRange size bins := by
  rw [stageRangeInPlace_apply, stageRange_eq_planRange, Run.caught]
  obtain ⟨es, outcome⟩ := n.planRange size bins
  cases outcome with
  | error e =>
    cases e with
    | refused cause => exact congrArg (Run.mk · _) (List.append_nil es).symm
    | _ => rfl
  | ok p =>
    have hrun : (⟨es, .ok (.ok p)⟩ : Run (Except BinningError Placement)) >>= (fun plan =>
        match plan with
        | .error cause => pure (.rejected cause none)
        | .ok p => liftM (n.stage p.parent size p.skip p.low (some p.high))) =
        ⟨es, n.stage p.parent size p.skip p.low (some p.high)⟩ :=
      congrArg (Run.mk · _) (List.append_nil es)
    dsimp only
    rw [hrun]
    split
    · next hs => rw [hs]
    · next hs => rw [hs]
    · next hs => rw [hs]

theorem settled_appendRangeOrAbort (size : Int) (bins : Option Int) :
    (appendRangeOrAbortInPlace size bins n).settled = n.appendRangeOrAbort size bins := by
  have hsettled := settled_of_stages none (n.stages_range size bins)
  rw [run_stageRangeInPlace] at hsettled
  simp only [bind_pure] at hsettled
  exact hsettled

/-- **The aborting forms of both additions agree with the returning ones.** In place they are the
forms that run, and unless an aborting form overflows, it aborts exactly where the other form hands
back the same error, leaves the same node, and reports what the other form reports and then its
diagnosis. -/
theorem appendOrAbort_agree :
    (∀ size skip low high report,
      (appendChildOrAbortInPlace size skip low high report n).settled =
        n.appendChildOrAbort size skip low high report ∧
      ((appendChildOrAbortInPlace size skip low high report n).run.outcome ≠ .error .overflow →
        Agrees n report (appendChildInPlace size skip low high n)
          (appendChildOrAbortInPlace size skip low high report n))) ∧
    ∀ size bins,
      (appendRangeOrAbortInPlace size bins n).settled = n.appendRangeOrAbort size bins ∧
      ((appendRangeOrAbortInPlace size bins n).run.outcome ≠ .error .overflow →
        Agrees n none (appendRangeInPlace size bins n)
          (appendRangeOrAbortInPlace size bins n)) := by
  constructor
  · intro size skip low high report
    refine ⟨n.settled_appendChildOrAbort size skip low high report, fun hrun => ?_⟩
    rw [appendChildInPlace_eq_settle]
    exact agrees_of_stages (n.stages_child size skip low high) hrun
  · intro size bins
    refine ⟨n.settled_appendRangeOrAbort size bins, fun hrun => ?_⟩
    rw [appendRangeInPlace_eq_settle]
    exact agrees_of_stages (n.stages_range size bins) hrun

end Forms

/-- On ten bins, a child of five is added and reported, and a range of twenty aborts, which leaves
the bounds that it was measured against to neither form. -/
theorem appendOrAbort_agree_tenBins :
    (appendChildOrAbortInPlace 1 0 1 (some 5) (some .full) (root tenBins)).run.outcome ≠
      .error .overflow ∧
    Agrees (root tenBins) (some .full) (appendChildInPlace 1 0 1 (some 5) (root tenBins))
      (appendChildOrAbortInPlace 1 0 1 (some 5) (some .full) (root tenBins)) ∧
    (appendChildOrAbortInPlace 1 0 1 (some 5) (some .full) (root tenBins)).run.events.length = 1 ∧
    (appendRangeOrAbortInPlace 1 (some 20) (root tenBins)).run.outcome =
      .error (.aborted (.containment 20 11)) ∧
    Agrees (root tenBins) none (appendRangeInPlace 1 (some 20) (root tenBins))
      (appendRangeOrAbortInPlace 1 (some 20) (root tenBins)) ∧
    (appendRangeOrAbortInPlace 1 (some 20) (root tenBins)).run.events.length = 3 ∧
    (appendRangeOrAbortInPlace 1 (some 20) (root tenBins)).left = root tenBins := by
  have hchild : (appendChildOrAbortInPlace 1 0 1 (some 5) (some .full)
      (root tenBins)).run.outcome ≠ .error .overflow := nofun
  have hrange : (appendRangeOrAbortInPlace 1 (some 20) (root tenBins)).run.outcome =
      .error (.aborted (.containment 20 11)) := by rfl
  have hne : (appendRangeOrAbortInPlace 1 (some 20) (root tenBins)).run.outcome ≠
      .error .overflow := by
    rw [hrange]
    exact nofun
  exact ⟨hchild, ((appendOrAbort_agree (root tenBins)).1 1 0 1 (some 5) (some .full)).2 hchild,
    by rfl, hrange, ((appendOrAbort_agree (root tenBins)).2 1 (some 20)).2 hne, by rfl, by rfl⟩

end Node

end Binning
