import Binning.Proofs.Containment
import Binning.Proofs.Rollback

/-!
# What an addition may change

Additions in place are made to one tree, at any of its nodes and in any order, and a first range
writes to more than the children of its node. This file says what is left alone.

* **A call** (`Binning.Node.FramedCall`) keeps every node at its path, over its axis and grouped as it
  was. An accepted one puts a childless node after the other children of the node that it is made
  to. The bounds of a node change only in the call that accepts a range on this very node while it
  has no children (`Binning.Node.Kept`).
* **A run** goes through trees (`Binning.Node.trees`), one call after the other. A node with
  children keeps its whole grouping from then on (`Binning.Node.exists_of_mem_trees`). The call
  that changes the bounds of a node gives it a child, so that there is no second one.

Both are put together in `Binning.Node.appendAllInPlace_framed`.
-/

namespace Binning

open Outcome

/-- A grouping is known by its size, its count and its bounds. -/
theorem Grouping.eq_of_bounds {g g' : Grouping} (hsize : g.size = g'.size)
    (hcount : g.count = g'.count) (hbounds : g.bounds = g'.bounds) : g = g' := by
  obtain ⟨size, skip, low, high, count, hpos⟩ := g
  obtain ⟨size', skip', low', high', count', hpos'⟩ := g'
  obtain ⟨rfl, rfl, rfl⟩ := Bounds.mk.inj hbounds
  obtain rfl : size = size' := hsize
  obtain rfl : count = count' := hcount
  rfl

namespace Node

open InPlace

variable {β : Type} [BaseAxis β]

/-! ### What a call leaves alone -/

omit [BaseAxis β] in
/-- **What a call leaves of a node** at the end of a path. -/
structure Kept (call : List Nat × Append) (accepted : Bool) (path : List Nat) (m m' : Node β) :
    Prop where
  base : m'.base = m.base
  size : m'.grouping.size = m.grouping.size
  count : m'.grouping.count = m.grouping.count
  /-- The number of children changes only where a child is added. -/
  length : m'.children.length =
    m.children.length + if accepted = true ∧ path = call.1 then 1 else 0
  /-- The bounds change only with the first range of the node. -/
  bounds : m'.grouping.bounds ≠ m.grouping.bounds →
    accepted = true ∧ path = call.1 ∧ m.children = [] ∧ ∃ size bins, call.2 = .range size bins
  /-- A node that is not on the way to the addition stays the same, with everything below it. -/
  aside : ¬path <+: call.1 → m' = m

omit [BaseAxis β] in
/-- **What a call does to a tree.** -/
structure FramedCall (call : List Nat × Append) (answer : Except BinningError (Node β))
    (t t' : Node β) : Prop where
  /-- A refused call changes nothing. -/
  refused : ∀ cause, answer = .error cause → t' = t
  /-- An accepted call puts a childless node after the other children of the called node. -/
  accepted : ∀ child, answer = .ok child → child.children = [] ∧
    ∃ n n', t.get? call.1 = some n ∧ t'.get? call.1 = some n' ∧ child.base = n.base ∧
      n'.children = n.children ++ [child]
  /-- Every node stays at its path. -/
  kept : ∀ path m, t.get? path = some m →
    ∃ m', t'.get? path = some m' ∧ Kept call answer.isOk path m m'

section Kept

variable {a : Append} {path : List Nat} {m m' : Node β}

omit [BaseAxis β] in
/-- A node that nothing is added to is kept as it is. -/
theorem Kept.refl {call : List Nat × Append} {accepted : Bool}
    (h : ¬(accepted = true ∧ path = call.1)) (m : Node β) : Kept call accepted path m m where
  base := rfl
  size := rfl
  count := rfl
  length := by rw [if_neg h, Nat.add_zero]
  bounds hne := absurd rfl hne
  aside _ := rfl

omit [BaseAxis β] in
/-- The called node gets a child, and it is rebased by its first range. -/
theorem kept_grown (call : List Nat × Append) (m : Node β) (g : Grouping) :
    Kept call true call.1 m (m.grown (call.2.regrouped m) g) where
  base := rfl
  size := by
    unfold Append.regrouped grown
    split
    · rfl
    · dsimp only
      split <;> rfl
  count := by
    unfold Append.regrouped grown
    split
    · rfl
    · dsimp only
      split <;> rfl
  length := by
    rw [if_pos ⟨rfl, rfl⟩]
    exact List.length_append
  bounds hne := by
    have hleaf : m.children = [] := by
      by_contra hchildren
      rw [grown, regrouped_of_ne_nil hchildren] at hne
      exact hne rfl
    refine ⟨rfl, rfl, hleaf, ?_⟩
    cases ha : call.2 with
    | child size skip low high =>
      rw [ha] at hne
      exact absurd rfl hne
    | range size bins => exact ⟨size, bins, rfl⟩
  aside hpath := absurd (List.prefix_refl _) hpath

omit [BaseAxis β] in
/-- What is kept below a child is kept below its parent. -/
theorem Kept.cons {below : List Nat} (h : Kept (below, a) true path m m') (i : Nat) :
    Kept (i :: below, a) true (i :: path) m m' where
  base := h.base
  size := h.size
  count := h.count
  length := by simpa using h.length
  bounds hne := by simpa using h.bounds hne
  aside hpath := h.aside fun hprefix => hpath (List.cons_prefix_cons.mpr ⟨rfl, hprefix⟩)

/-- **Every node of a tree is kept** by an addition. -/
theorem kept_of_appendAt {t t' : Node β} {called : List Nat}
    (h : (t.appendAt called a).outcome = .ok t') (hm : t.get? path = some m) :
    ∃ m', t'.get? path = some m' ∧ Kept (called, a) true path m m' := by
  induction called generalizing t t' path with
  | nil =>
    obtain ⟨g, rfl, -⟩ := exists_grown_of_append h
    cases path with
    | nil =>
      obtain rfl : t = m := Option.some.inj hm
      exact ⟨_, rfl, kept_grown ([], a) t g⟩
    | cons j path =>
      refine ⟨m, ?_, .refl (by simp) m⟩
      obtain ⟨c, hc, hget⟩ := Option.bind_eq_some_iff.mp hm
      have hlt := (List.getElem?_eq_some_iff.mp hc).1
      rw [get?_cons, grown, List.getElem?_append_left hlt, hc]
      exact hget
  | cons i called ih =>
    obtain ⟨c, c', hc, hcall, rfl⟩ := appendAt_cons_eq_ok.mp h
    cases path with
    | nil =>
      obtain rfl : t = m := Option.some.inj hm
      exact ⟨_, rfl, {
        base := rfl
        size := rfl
        count := rfl
        length := by simp
        bounds := fun hne => absurd rfl hne
        aside := fun hpath => absurd List.nil_prefix hpath }⟩
    | cons j path =>
      obtain ⟨d, hd, hget⟩ := Option.bind_eq_some_iff.mp hm
      by_cases hij : i = j
      · obtain rfl := hij
        obtain rfl : c = d := Option.some.inj (hc.symm.trans hd)
        obtain ⟨m', hm', hkept⟩ := ih hcall hget
        refine ⟨m', ?_, hkept.cons i⟩
        rw [get?_cons, List.getElem?_set_self (List.getElem?_eq_some_iff.mp hc).1]
        exact hm'
      · refine ⟨m, ?_, .refl ?_ m⟩
        · rw [get?_cons, List.getElem?_set_ne hij, hd]
          exact hget
        · rintro ⟨-, hpath⟩
          exact hij (List.cons.inj hpath).1.symm

end Kept

/-! ### What a call does -/

/-- The child that is handed back is the last one of the node. -/
theorem children_of_appendInPlace {a : Append} {n child : Node β}
    (h : (appendInPlace a n).run.outcome = .ok child) :
    (appendInPlace a n).left.children = n.children ++ [child] := by
  cases a with
  | child size skip low high =>
    rw [appendInPlace, appendChildInPlace, look_bind, ofRun_bind, Run.outcome_ofOutcome] at h ⊢
    cases hs : n.stage n.grouping size skip low high with
    | error e =>
      rw [hs] at h
      cases h
    | ok staged =>
      rw [hs] at h
      cases staged with
      | accepted parent c =>
        obtain rfl : c = child := Except.ok.inj h
        rfl
      | rejected cause c => cases h
  | range size bins =>
    rw [appendInPlace, appendRangeInPlace_apply] at h ⊢
    split at h
    · split at h
      · cases h
        rfl
      · cases h
      · cases h
    · cases h

/-- An addition in place leaves the tree that the addition makes. -/
theorem appendAt_of_inPlace {path : List Nat} {a : Append} {t child : Node β}
    (h : (appendAtInPlace path a t).run.outcome = .ok child) :
    (t.appendAt path a).outcome = .ok (appendAtInPlace path a t).left := by
  rw [(faithful_appendAt path a).settled_eq t]
  exact Run.outcome_bind_eq_ok.mpr ⟨child, h, rfl⟩

/-- **The child that is handed back** has no children, and shares the axis of its parent, whose
last child it is. -/
theorem added_of_appendInPlace {a : Append} {n child : Node β}
    (h : (appendInPlace a n).run.outcome = .ok child) :
    child.children = [] ∧ child.base = n.base ∧
      (appendInPlace a n).left.children = n.children ++ [child] := by
  have hchildren := children_of_appendInPlace h
  have happend : (n.append a).outcome = .ok (appendInPlace a n).left :=
    appendAt_of_inPlace (show (appendAtInPlace [] a n).run.outcome = .ok child from h)
  obtain ⟨g, hgrown, -⟩ := exists_grown_of_append happend
  have hleft : (appendInPlace a n).left.children = n.children ++ [⟨n.base, g, []⟩] :=
    congrArg Node.children hgrown
  obtain rfl : child = ⟨n.base, g, []⟩ := by
    simpa using hchildren.symm.trans hleft
  exact ⟨rfl, rfl, hchildren⟩

omit [BaseAxis β] in
/-- A computation at the end of a path works on the node there. -/
theorem get?_of_atPath {x : InPlace β (Node β)} {path : List Nat} {t child : Node β}
    (h : (atPath x path t).run.outcome = .ok child) :
    ∃ n, t.get? path = some n ∧ (x n).run.outcome = .ok child ∧
      (atPath x path t).left.get? path = some (x n).left := by
  induction path generalizing t with
  | nil => exact ⟨t, rfl, h, rfl⟩
  | cons i path ih =>
    unfold atPath below at h ⊢
    cases hc : t.children[i]? with
    | none =>
      rw [hc] at h
      cases h
    | some c =>
      rw [hc] at h
      obtain ⟨n, hn, hx, hleft⟩ := ih h
      refine ⟨n, ?_, hx, ?_⟩
      · rw [get?_cons, hc]
        exact hn
      · rw [get?_cons]
        dsimp only
        rw [List.getElem?_set_self (List.getElem?_eq_some_iff.mp hc).1]
        exact hleft

/-- **A call that is answered** leaves everything else alone. -/
theorem framed_of_answer {call : List Nat × Append} {answer : Except BinningError (Node β)}
    {t : Node β}
    (h : (appendAtInPlace call.1 call.2 t).run.outcome = answer.mapError Failure.refused) :
    FramedCall call answer t (appendAtInPlace call.1 call.2 t).left := by
  cases answer with
  | error cause =>
    have hleft := left_of_answer h
    have hrefused : (Except.error cause : Except BinningError (Node β)).isOk = false := rfl
    refine ⟨fun _ _ => hleft, nofun, fun path m hm => ⟨m, ?_, .refl (by simp [hrefused]) m⟩⟩
    rw [hleft]
    exact hm
  | ok child =>
    have hcall := appendAt_of_inPlace h
    refine ⟨nofun, fun c hc => ?_, fun path m hm => kept_of_appendAt hcall hm⟩
    obtain rfl : child = c := Except.ok.inj hc
    obtain ⟨n, hn, hadded, hleft⟩ := get?_of_atPath h
    obtain ⟨hleaf, hbase, hchildren⟩ := added_of_appendInPlace hadded
    exact ⟨hleaf, n, _, hn, hleft, hbase, hchildren⟩

/-! ### What a run does -/

/-- **The trees of a run**: the one it starts with, and what each call leaves. -/
def trees : List (List Nat × Append) → Node β → List (Node β)
  | [], t => [t]
  | call :: calls, t => t :: trees calls (appendAtInPlace call.1 call.2 t).left

omit [BaseAxis β] in
/-- Two trees that follow one another. -/
def Follows (ts : List (Node β)) (k : Nat) (u u' : Node β) : Prop :=
  ts[k]? = some u ∧ ts[k + 1]? = some u'

omit [BaseAxis β] in
/-- The bounds of the node at the end of a path change between two trees. -/
def Moves (path : List Nat) (u u' : Node β) : Prop :=
  ∃ m m', u.get? path = some m ∧ u'.get? path = some m' ∧ m'.grouping.bounds ≠ m.grouping.bounds

/-- **A run that keeps its frame.** -/
structure FramedRun (calls : List (List Nat × Append))
    (answers : List (Except BinningError (Node β))) (t last : Node β) : Prop where
  /-- The run goes from the first of its trees to the last. -/
  ends : (trees calls t)[0]? = some t ∧ (trees calls t).getLast? = some last
  /-- Each call is framed. -/
  framed : ∀ k call, calls[k]? = some call → ∃ u u' answer, Follows (trees calls t) k u u' ∧
    answers[k]? = some answer ∧ FramedCall call answer u u'
  /-- The bounds of a node change at most once. -/
  once : ∀ path j k u u' v v', Follows (trees calls t) j u u' → Follows (trees calls t) k v v' →
    Moves path u u' → Moves path v v' → j = k
  /-- A node with children keeps its grouping from then on. -/
  divided : ∀ (path : List Nat) (j k : Nat) (u v m : Node β), j ≤ k →
    (trees calls t)[j]? = some u → (trees calls t)[k]? = some v →
    u.get? path = some m → m.children ≠ [] →
    ∃ m', v.get? path = some m' ∧ m'.grouping = m.grouping
  /-- An axis that all nodes share is shared in all trees. -/
  shared : (t.Everywhere fun n => n.base = t.base) →
    ∀ u ∈ trees calls t, u.Everywhere fun n => n.base = t.base

section Runs

variable {calls : List (List Nat × Append)} {t last : Node β}
  {answers : List (Except BinningError (Node β))}

omit [BaseAxis β] in
/-- A node with children keeps its grouping in a call, and it keeps children. -/
theorem FramedCall.grouping_eq {call : List Nat × Append} {answer : Except BinningError (Node β)}
    {t' m : Node β} {path : List Nat} (h : FramedCall call answer t t') (hm : t.get? path = some m)
    (hne : m.children ≠ []) :
    ∃ m', t'.get? path = some m' ∧ m'.grouping = m.grouping ∧ m'.children ≠ [] := by
  obtain ⟨m', hm', hkept⟩ := h.kept path m hm
  refine ⟨m', hm', ?_, fun hnil => ?_⟩
  · refine Grouping.eq_of_bounds hkept.size hkept.count ?_
    by_contra hbounds
    exact hne (hkept.bounds hbounds).2.2.1
  · have hlen := hkept.length
    rw [hnil, List.length_nil] at hlen
    exact hne (List.length_eq_zero_iff.mp (by omega))

omit [BaseAxis β] in
/-- **The call that changes the bounds of a node** gives it a child. -/
theorem FramedCall.children_ne_nil_of_moves {call : List Nat × Append}
    {answer : Except BinningError (Node β)} {t' : Node β} {path : List Nat}
    (h : FramedCall call answer t t') (hmoves : Moves path t t') :
    ∃ m', t'.get? path = some m' ∧ m'.children ≠ [] := by
  obtain ⟨m, m', hm, hm', hbounds⟩ := hmoves
  obtain ⟨m'', hm'', hkept⟩ := h.kept path m hm
  obtain rfl : m' = m'' := Option.some.inj (hm'.symm.trans hm'')
  obtain ⟨haccepted, hpath, -⟩ := hkept.bounds hbounds
  refine ⟨m', hm', fun hnil => ?_⟩
  have hlen := hkept.length
  rw [hnil, List.length_nil, if_pos ⟨haccepted, hpath⟩] at hlen
  omega

theorem getElem?_trees_zero (calls : List (List Nat × Append)) (t : Node β) :
    (trees calls t)[0]? = some t := by
  cases calls <;> rfl

theorem length_trees (calls : List (List Nat × Append)) (t : Node β) :
    (trees calls t).length = calls.length + 1 := by
  induction calls generalizing t with
  | nil => rfl
  | cons call calls ih => exact congrArg Nat.succ (ih _)

theorem getLast?_trees (h : appendAllInPlace calls t = .ok (answers, last)) :
    (trees calls t).getLast? = some last := by
  induction calls generalizing t answers with
  | nil =>
    obtain ⟨-, rfl⟩ := Prod.mk.inj (Except.ok.inj h)
    rfl
  | cons call calls ih =>
    obtain ⟨answer, rest, -, hrest, rfl⟩ := appendAllInPlace_cons_eq_ok.mp h
    rw [trees, List.getLast?_cons, ih hrest]
    rfl

/-- **Each call of a run is framed**, between the tree that it finds and the one that it leaves. -/
theorem framed_of_run (h : appendAllInPlace calls t = .ok (answers, last)) {k : Nat}
    {call : List Nat × Append} (hcall : calls[k]? = some call) :
    ∃ u u' answer, Follows (trees calls t) k u u' ∧ answers[k]? = some answer ∧
      FramedCall call answer u u' := by
  induction k generalizing calls t answers with
  | zero =>
    cases calls with
    | nil => cases hcall
    | cons first calls =>
      obtain rfl : first = call := Option.some.inj hcall
      obtain ⟨answer, rest, hanswer, -, rfl⟩ := appendAllInPlace_cons_eq_ok.mp h
      exact ⟨t, _, answer, ⟨rfl, getElem?_trees_zero _ _⟩, rfl, framed_of_answer hanswer⟩
  | succ k ih =>
    cases calls with
    | nil => cases hcall
    | cons first calls =>
      obtain ⟨answer, rest, -, hrest, rfl⟩ := appendAllInPlace_cons_eq_ok.mp h
      exact ih hrest hcall

/-- A run goes on from each of its trees. -/
theorem appendAllInPlace_drop (h : appendAllInPlace calls t = .ok (answers, last)) {k : Nat}
    {u : Node β} (hu : (trees calls t)[k]? = some u) :
    appendAllInPlace (calls.drop k) u = .ok (answers.drop k, last) ∧
      (trees calls t).drop k = trees (calls.drop k) u := by
  induction k generalizing calls t answers with
  | zero =>
    rw [getElem?_trees_zero] at hu
    obtain rfl := Option.some.inj hu
    exact ⟨h, rfl⟩
  | succ k ih =>
    cases calls with
    | nil => cases hu
    | cons call calls =>
      obtain ⟨answer, rest, -, hrest, rfl⟩ := appendAllInPlace_cons_eq_ok.mp h
      exact ih hrest hu

/-- **A node with children keeps its grouping** in all trees of a run. -/
theorem exists_of_mem_trees (h : appendAllInPlace calls t = .ok (answers, last)) {path : List Nat}
    {m : Node β} (hm : t.get? path = some m) (hne : m.children ≠ []) :
    ∀ u ∈ trees calls t, ∃ m', u.get? path = some m' ∧ m'.grouping = m.grouping := by
  induction calls generalizing t answers m with
  | nil => exact List.forall_mem_singleton.mpr ⟨m, hm, rfl⟩
  | cons call calls ih =>
    obtain ⟨answer, rest, hanswer, hrest, rfl⟩ := appendAllInPlace_cons_eq_ok.mp h
    obtain ⟨m', hm', hgrouping, hne'⟩ := (framed_of_answer hanswer).grouping_eq hm hne
    refine List.forall_mem_cons.mpr ⟨⟨m, hm, rfl⟩, fun u hu => ?_⟩
    obtain ⟨m'', hm'', heq⟩ := ih hrest hm' hne' u hu
    exact ⟨m'', hm'', heq.trans hgrouping⟩

/-- It does so from any tree of the run on. -/
theorem exists_of_le (h : appendAllInPlace calls t = .ok (answers, last)) {path : List Nat}
    {j k : Nat} {u v m : Node β} (hjk : j ≤ k) (hu : (trees calls t)[j]? = some u)
    (hv : (trees calls t)[k]? = some v) (hm : u.get? path = some m) (hne : m.children ≠ []) :
    ∃ m', v.get? path = some m' ∧ m'.grouping = m.grouping := by
  obtain ⟨hrun, hdrop⟩ := appendAllInPlace_drop h hu
  refine exists_of_mem_trees hrun hm hne v (List.mem_of_getElem? (i := k - j) ?_)
  rw [← hdrop, List.getElem?_drop, Nat.add_sub_cancel' hjk]
  exact hv

/-- **After the call that changes the bounds of a node** they do not change again. -/
theorem not_moves_of_lt (h : appendAllInPlace calls t = .ok (answers, last)) {path : List Nat}
    {j k : Nat} {u u' v v' : Node β} (hjk : j < k) (hu : Follows (trees calls t) j u u')
    (hv : Follows (trees calls t) k v v') (hmoves : Moves path u u') : ¬Moves path v v' := by
  have hlt : j < calls.length := by
    have hj := (List.getElem?_eq_some_iff.mp hu.2).1
    rw [length_trees] at hj
    omega
  obtain ⟨w, w', answer, hw, -, hframed⟩ := framed_of_run h (List.getElem?_eq_getElem hlt)
  obtain rfl : u = w := Option.some.inj (hu.1.symm.trans hw.1)
  obtain rfl : u' = w' := Option.some.inj (hu.2.symm.trans hw.2)
  obtain ⟨m, hm, hne⟩ := hframed.children_ne_nil_of_moves hmoves
  -- From then on the node has children, before the later call and after it.
  obtain ⟨n, hn, hsame⟩ := exists_of_le h (Nat.succ_le_of_lt hjk) hu.2 hv.1 hm hne
  obtain ⟨n', hn', hsame'⟩ :=
    exists_of_le h (Nat.succ_le_of_lt (Nat.lt_succ_of_lt hjk)) hu.2 hv.2 hm hne
  rintro ⟨p, p', hp, hp', hbounds⟩
  obtain rfl : n = p := Option.some.inj (hn.symm.trans hp)
  obtain rfl : n' = p' := Option.some.inj (hn'.symm.trans hp')
  exact hbounds (by rw [hsame, hsame'])

/-- **An axis that all nodes share** is shared in all trees of a run. -/
theorem everywhere_base_of_mem_trees (h : appendAllInPlace calls t = .ok (answers, last))
    {base : Option β} (hbase : t.Everywhere fun n => n.base = base) :
    ∀ u ∈ trees calls t, u.Everywhere fun n => n.base = base := by
  induction calls generalizing t answers with
  | nil => exact List.forall_mem_singleton.mpr hbase
  | cons call calls ih =>
    obtain ⟨answer, rest, hanswer, hrest, rfl⟩ := appendAllInPlace_cons_eq_ok.mp h
    refine List.forall_mem_cons.mpr ⟨hbase, ih hrest ?_⟩
    cases answer with
    | ok child => exact everywhere_base_of_appendAt (appendAt_of_inPlace hanswer) hbase
    | error cause => rwa [left_of_answer hanswer]

/-- **Additions change nothing but what they must.** For any tree and any additions in place to
its nodes, one after the other, none of which overflows: each call adds a childless node after the
children of the called node, or is refused and changes nothing; no node loses its axis, its group
size or its count; its bounds change at most once, with its first range, and not when it has
children; and an axis that all nodes share stays with all of them. -/
theorem appendAllInPlace_framed (h : appendAllInPlace calls t = .ok (answers, last)) :
    FramedRun calls answers t last where
  ends := ⟨getElem?_trees_zero calls t, getLast?_trees h⟩
  framed _ _ hcall := framed_of_run h hcall
  once path j k u u' v v' hu hv hmoves hmoves' := by
    rcases Nat.lt_trichotomy j k with hlt | heq | hgt
    · exact absurd hmoves' (not_moves_of_lt h hlt hu hv hmoves)
    · exact heq
    · exact absurd hmoves (not_moves_of_lt h hgt hv hu hmoves')
  divided _ _ _ _ _ _ hjk hu hv hm hne := exists_of_le h hjk hu hv hm hne
  shared hbase := everywhere_base_of_mem_trees h hbase

end Runs

/-- A run on ten bins, with a range, a refused child and a range below it, and a second range. The
bounds of the root are moved by the first call, and those of its first child by the third. -/
theorem appendAllInPlace_framed_tenBins : ∃ (first second third last : Node UnitAxis),
    appendAllInPlace [([], .range 2 (some 2)), ([0], .child 1 0 1 (some 100)),
        ([0], .range 1 (some 2)), ([], .range 1 none)] (root tenBins) =
      .ok ([.ok first, .error (.containment 100 5), .ok second, .ok third], last) ∧
    FramedRun [([], .range 2 (some 2)), ([0], .child 1 0 1 (some 100)),
        ([0], .range 1 (some 2)), ([], .range 1 none)]
      [.ok first, .error (.containment 100 5), .ok second, .ok third] (root tenBins) last ∧
    last.grouping.bounds ≠ (root tenBins).grouping.bounds ∧
    (∃ child, last.get? [0] = some child ∧ child.grouping.bounds ≠ first.grouping.bounds) := by
  have hrun : appendAllInPlace [([], .range 2 (some 2)), ([0], .child 1 0 1 (some 100)),
        ([0], .range 1 (some 2)), ([], .range 1 none)] (root tenBins) =
      .ok ([.ok ⟨some tenBins, ⟨2, 1, 0, 2, 4, by decide⟩, []⟩, .error (.containment 100 5),
          .ok ⟨some tenBins, ⟨1, 0, 0, 2, 10, by decide⟩, []⟩,
          .ok ⟨some tenBins, ⟨1, 1, 9, 9, 9, by decide⟩, []⟩],
        ⟨some tenBins, ⟨1, 1, 0, 10, 10, by decide⟩,
          [⟨some tenBins, ⟨2, 0, 0, 3, 4, by decide⟩,
            [⟨some tenBins, ⟨1, 0, 0, 2, 10, by decide⟩, []⟩]⟩,
          ⟨some tenBins, ⟨1, 1, 9, 9, 9, by decide⟩, []⟩]⟩) := by rfl
  exact ⟨_, _, _, _, hrun, appendAllInPlace_framed hrun, by decide, _, rfl, by decide⟩

end Node

end Binning
