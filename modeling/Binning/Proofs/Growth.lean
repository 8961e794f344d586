import Binning.Axis.Unit
import Binning.Proofs.Attempts
import Binning.Proofs.Range

/-!
# Growing a tree at any depth

Children and ranges can be added to every node of a tree, not only to its root. This file
says what that does to the tree.

* At the node itself, an accepted child or range is a childless node after the other
  children, which ends within its parent (`Binning.Node.exists_grown_of_append`). The
  grouping of the node changes only with the first range (`Binning.Append.regrouped`).
* Above the node, one child is replaced at each level and nothing else changes
  (`Binning.Node.appendAt_cons_eq_ok`). What happens below some node is seen from there as
  an addition to that node alone (`Binning.Node.get?_of_appendAt_append`).

A node that has children keeps its grouping, wherever something is added
(`Binning.Node.regrouped_of_ne_nil`, `Binning.Node.appendAt_grouping`).

A tree grows by additions tried one after the other (`Binning.Node.tryAppends`).
-/

namespace Binning

open Outcome

variable {β : Type}

/-- The grouping of a node once it has another child or range: the first range rebases the
node, and nothing else does. -/
def Append.regrouped (a : Append) (n : Node β) : Grouping :=
  match a with
  | .child _ _ _ _ => n.grouping
  | .range size _ => if n.isLeaf then n.grouping.rebased size else n.grouping

namespace Node

/-- A node with children is not rebased. -/
theorem regrouped_of_ne_nil {n : Node β} (h : n.children ≠ []) (a : Append) :
    a.regrouped n = n.grouping := by
  cases a with
  | child size skip low high => rfl
  | range size bins => simp [Append.regrouped, isLeaf, h]

/-! ### At the node itself -/

section Append

variable [BaseAxis β]

theorem placed_parent (n : Node β) (base : β) (size : Int) (bins : Option Int) :
    (n.placed base size bins).parent =
      if n.isLeaf then n.grouping.rebased size else n.grouping := by
  unfold placed
  dsimp only
  split <;> rfl

/-- **What an accepted addition does to a node**: there is one more child, which has no
children and ends within its parent. Both ends are known. -/
theorem exists_grown_of_append {n m : Node β} {a : Append} (h : (n.append a).outcome = .ok m) :
    ∃ g, m = n.grown (a.regrouped n) g ∧ g.stop = .ok g.upper ∧
      (a.regrouped n).stop = .ok (a.regrouped n).upper ∧ g.upper ≤ (a.regrouped n).upper := by
  cases a with
  | child size skip low high =>
    have h : (n.appendChild size skip low high).outcome = .ok m := h
    rw [appendChild_outcome, stage_settle_eq_ok] at h
    obtain ⟨_, base, g, stop, limit, -, -, hstop, hlimit, hle, rfl⟩ := h
    have hup := g.stop_gives.eq_of_ok hstop
    have hlim := n.grouping.stop_gives.eq_of_ok hlimit
    exact ⟨g, rfl, hup ▸ hstop, hlim ▸ hlimit, hup ▸ hlim ▸ hle⟩
  | range size bins =>
    obtain ⟨_, base, p, g, -, rfl, -, hstop, hlimit, hle, hm⟩ := exists_child_of_appendRange h
    rw [placed_parent] at hlimit hle hm
    exact ⟨g, hm, hstop, hlimit, hle⟩

end Append

/-! ### Along a path -/

theorem get?_cons (n : Node β) (i : Nat) (path : List Nat) :
    n.get? (i :: path) = n.children[i]?.bind (get? path) := rfl

/-- A change below a child replaces the child. -/
theorem updateAt_cons_eq_ok {f : Node β → Run (Node β)} {i : Nat} {path : List Nat}
    {n m : Node β} :
    (updateAt f (i :: path) n).outcome = .ok m ↔ ∃ c c', n.children[i]? = some c ∧
      (updateAt f path c).outcome = .ok c' ∧ m = { n with children := n.children.set i c' } := by
  rw [updateAt]
  cases hc : n.children[i]? with
  | none => simp
  | some c =>
    simp only [Run.outcome_bind_eq_ok, Run.outcome_pure, Except.ok.injEq, Option.some.injEq,
      exists_and_left, exists_eq_left']
    exact exists_congr fun c' => and_congr_right fun _ => eq_comm

/-- A change at the end of a longer path is a change of the node on the way. -/
theorem updateAt_append (f : Node β → Run (Node β)) (above below : List Nat) (n : Node β) :
    updateAt f (above ++ below) n = updateAt (updateAt f below) above n := by
  induction above generalizing n with
  | nil => rfl
  | cons i above ih =>
    rw [List.cons_append, updateAt, updateAt]
    simp only [ih]

/-- The node at the end of a path after it was changed there. -/
theorem get?_of_updateAt {f : Node β → Run (Node β)} {path : List Nat} {n m c : Node β}
    (h : (updateAt f path n).outcome = .ok m) (hc : n.get? path = some c) :
    ∃ c', m.get? path = some c' ∧ (f c).outcome = .ok c' := by
  induction path generalizing n m with
  | nil =>
    obtain rfl : n = c := Option.some.inj hc
    exact ⟨m, rfl, h⟩
  | cons i path ih =>
    obtain ⟨d, d', hd, hd', rfl⟩ := updateAt_cons_eq_ok.mp h
    rw [get?_cons, hd] at hc
    obtain ⟨c', hget, hf⟩ := ih hd' hc
    refine ⟨c', ?_, hf⟩
    have hlt := (List.getElem?_eq_some_iff.mp hd).1
    rw [get?_cons, List.getElem?_set_self hlt]
    exact hget

/-! ### In a tree -/

section Tree

variable [BaseAxis β] {a : Append} {path : List Nat} {t t' : Node β}

/-- **An addition below a child** changes this child of a tree and nothing else. -/
theorem appendAt_cons_eq_ok {i : Nat} :
    (t.appendAt (i :: path) a).outcome = .ok t' ↔ ∃ c c', t.children[i]? = some c ∧
      (c.appendAt path a).outcome = .ok c' ∧ t' = { t with children := t.children.set i c' } :=
  updateAt_cons_eq_ok

/-- An addition below a node on the way is an addition to the tree of this node. -/
theorem get?_of_appendAt_append {above : List Nat} {n : Node β}
    (h : (t.appendAt (above ++ path) a).outcome = .ok t') (hn : t.get? above = some n) :
    ∃ n', t'.get? above = some n' ∧ (n.appendAt path a).outcome = .ok n' := by
  rw [appendAt, updateAt_append] at h
  exact get?_of_updateAt h hn

/-- **What an addition leaves of the root of a tree**: it stays over its axis, and its
grouping changes only if the addition is to the root itself. -/
theorem appendAt_grouping (h : (t.appendAt path a).outcome = .ok t') :
    t'.base = t.base ∧ t'.children ≠ [] ∧
      t'.grouping = if path = [] then a.regrouped t else t.grouping := by
  cases path with
  | nil =>
    obtain ⟨g, rfl, -⟩ := exists_grown_of_append h
    simp [grown]
  | cons i path =>
    obtain ⟨c, c', hc, -, rfl⟩ := appendAt_cons_eq_ok.mp h
    have hne : t.children ≠ [] := by
      rintro hnil
      simp [hnil] at hc
    simpa using hne

/-- A node with children keeps its grouping. -/
theorem appendAt_grouping_of_ne_nil (h : (t.appendAt path a).outcome = .ok t')
    (hne : t.children ≠ []) : t'.grouping = t.grouping := by
  rw [(appendAt_grouping h).2.2, regrouped_of_ne_nil hne, ite_self]

/-- **Additions tried on a tree**, one after the other, each at the node at the end of a
path. -/
def tryAppends (t : Node β) (calls : List (List Nat × Append)) :
    Outcome (List (List Nat × Append) × Node β) :=
  Run.attempts (fun call t => t.appendAt call.1 call.2) calls t

/-- An addition tried on its own is accepted, or the tree stays as it is. -/
theorem tryAppends_singleton {call : List Nat × Append} {accepted : List (List Nat × Append)}
    (h : t.tryAppends [call] = .ok (accepted, t')) :
    (t.appendAt call.1 call.2).outcome = .ok t' ∧ accepted = [call] ∨
      t' = t ∧ accepted = [] := by
  rcases Run.attempts_cons_eq_ok.mp h with ⟨s, rest, hcall, hrest, rfl⟩ | ⟨_, -, hrest⟩
  · obtain ⟨rfl, rfl⟩ := Prod.mk.inj (Except.ok.inj hrest)
    exact Or.inl ⟨hcall, rfl⟩
  · obtain ⟨rfl, rfl⟩ := Prod.mk.inj (Except.ok.inj hrest)
    exact Or.inr ⟨rfl, rfl⟩

end Tree

/-- Ten bins of width one, the base axis of all trees that are grown as examples. -/
abbrev tenBins : UnitAxis := ⟨10, Double.zero⟩

end Node

end Binning
