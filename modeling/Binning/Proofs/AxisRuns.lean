import Binning.Axis.Json
import Binning.Proofs.Codec
import Binning.Proofs.Usable

/-!
# Axes over whole runs

An axis is made from edges or read from a text, and then it may be given labels, given other edges
or have a tree flattened into it, any number of times (`Binning.Axis.Reached`). Two checks guard
what is read: edges must be ascending, and there must be one label for each bin. Replacing the edges
makes no check at all. So an axis may come to have edges that make no binning, but its labels
always fit: whoever changes the number of bins drops them (`Binning.Axis.Reached.labelled`).

This decides what becomes of an axis that is printed (`Binning.Axis.ofText_toText_iff_usable`).
Printing itself never fails, but an infinite edge is printed as `null`, which is no number, and the
other faults of edges are found by the same checks that were not made before. Labels cannot be the
reason for which a text is refused.
-/

namespace Binning

namespace Axis

open Json

/-! ### Labels -/

/-- **There is one label for each bin**, if there are any. -/
def Labelled (a : Axis) : Prop := ∀ ls, a.labels = some ls → ls.length = a.binCount

/-- An axis without labels. -/
theorem labelled_of_none {a : Axis} (h : a.labels = none) : a.Labelled := by
  intro ls hls
  rw [h] at hls
  cases hls

theorem labelled_of_ofEdges {es : List Double} {a : Axis} (h : ofEdges es = .ok a) :
    a.Labelled := by
  obtain ⟨-, -, rfl⟩ := ofEdges_eq_ok.mp h
  exact labelled_of_none rfl

theorem labelled_of_uniform {bins : Nat} {low high : Double} {a : Axis}
    (h : uniform bins low high = .ok a) : a.Labelled := by
  obtain ⟨-, rfl⟩ := uniform_eq_ok h
  exact labelled_of_none rfl

theorem labelled_of_withLabels {a b : Axis} {ls : List String} (h : a.withLabels ls = .ok b) :
    b.Labelled := by
  obtain ⟨hlen, rfl⟩ := withLabels_eq_ok.mp h
  rintro _ ⟨⟩
  exact hlen

/-- Flattening a tree into an axis leaves it as it is, or drops its labels. -/
theorem labelled_of_flatten {β : Type} [BaseAxis β] {n : Node β} {a b : Axis} (ha : a.Labelled)
    (h : (n.flatten a).outcome = .ok b) : b.Labelled := by
  obtain ⟨es, -, h⟩ := Run.outcome_bind_eq_ok.mp h
  split at h
  · cases h
    exact ha
  · obtain ⟨_, -, h⟩ := Run.outcome_bind_eq_ok.mp h
    cases h
    exact labelled_of_none rfl

/-- **The axis that edges and labels make**: the edges are ascending and the labels fit them. -/
theorem ofParts_eq_ok {es : List Double} {labels : Option (List String)} {a : Axis} :
    ofParts es labels = .ok a ↔
      2 ≤ es.length ∧ es.Pairwise (· < ·) ∧ a = ⟨es, labels⟩ ∧ a.Labelled := by
  rw [ofParts, Except.bind_eq_ok]
  constructor
  · rintro ⟨b, hb, h⟩
    obtain ⟨htwo, hasc, rfl⟩ := ofEdges_eq_ok.mp hb
    cases labels with
    | none =>
      cases h
      exact ⟨htwo, hasc, rfl, labelled_of_none rfl⟩
    | some ls => exact ⟨htwo, hasc, (withLabels_eq_ok.mp h).2, labelled_of_withLabels h⟩
  · rintro ⟨htwo, hasc, rfl, hlabels⟩
    refine ⟨⟨es, none⟩, ofEdges_eq_ok.mpr ⟨htwo, hasc, rfl⟩, ?_⟩
    cases labels with
    | none => rfl
    | some ls => exact withLabels_eq_ok.mpr ⟨hlabels ls rfl, rfl⟩

/-- An axis is decoded from its parts. -/
theorem decode_eq_ok {v : Json} {a : Axis} : decode v = .ok a ↔
    ∃ parts, decodeParts v = .ok parts ∧ ofParts parts.1 parts.2 = .ok a := by
  rw [decode, Except.bind_eq_ok]
  refine exists_congr fun parts => and_congr_right fun _ => ?_
  dsimp only
  cases ofParts parts.1 parts.2 with
  | error e => exact ⟨nofun, nofun⟩
  | ok b => exact ⟨fun h => congrArg _ (Except.ok.inj h), fun h => congrArg _ (Except.ok.inj h)⟩

theorem labelled_of_ofText {s : String} {a : Axis} (h : ofText s = .ok a) : a.Labelled := by
  have hensures : Ensures decode Labelled := by
    intro v a h
    obtain ⟨parts, -, h⟩ := decode_eq_ok.mp h
    exact (ofParts_eq_ok.mp h).2.2.2
  exact hensures.readText h

/-! ### Runs -/

/-- **The axes that a program can come to have.** -/
inductive Reached : Axis → Prop where
  /-- An axis of given edges. -/
  | ofEdges {es : List Double} {a : Axis} (h : ofEdges es = .ok a) : Reached a
  /-- An axis of bins of equal width. -/
  | uniform {bins : Nat} {low high : Double} {a : Axis} (h : uniform bins low high = .ok a) :
    Reached a
  /-- An axis that is read from a text. -/
  | ofText {s : String} {a : Axis} (h : ofText s = .ok a) : Reached a
  /-- Labels are given to an axis. -/
  | withLabels {a b : Axis} {ls : List String} (ha : Reached a) (h : a.withLabels ls = .ok b) :
    Reached b
  /-- The edges of an axis are replaced, by any others. -/
  | setEdges {a : Axis} (es : List Double) (ha : Reached a) : Reached (a.setEdges es)
  /-- A tree over any axis is flattened into an axis. -/
  | flatten {β : Type} [BaseAxis β] {n : Node β} {a b : Axis} (ha : Reached a)
    (h : (n.flatten a).outcome = .ok b) : Reached b

/-- **Labels over whole runs**: whatever is done, there is one label for each bin. -/
theorem Reached.labelled {a : Axis} (h : a.Reached) : a.Labelled := by
  induction h with
  | ofEdges h => exact labelled_of_ofEdges h
  | uniform h => exact labelled_of_uniform h
  | ofText h => exact labelled_of_ofText h
  | withLabels _ h _ => exact labelled_of_withLabels h
  | setEdges es _ _ => exact labelled_of_none rfl
  | flatten _ h ih => exact labelled_of_flatten ih h

/-! ### The text of an axis -/

/-- Any axis is printed in the grammar of JSON. -/
theorem grammatical_toJson (a : Axis) : a.toJson.Grammatical := by
  have hedges : (list double a.edges).Grammatical :=
    grammatical_list fun x _ => grammatical_double x
  rw [toJson, record]
  cases a.labels with
  | none => exact ⟨hedges, trivial⟩
  | some ls => exact ⟨hedges, grammatical_list fun _ _ => trivial, trivial⟩

/-- **The parts of an axis are read back** if its edges are. -/
theorem decodeParts_toJson {a : Axis} (h : ∀ x ∈ a.edges, x.IsPrinted) :
    decodeParts a.toJson = .ok (a.edges, a.labels) := by
  have hedges := codec_double.list.reads h
  obtain ⟨es, _ | ls⟩ := a
  · rw [toJson, record, decodeParts]
    simp only [List.map_cons, List.map_nil, decodeMembers, Fields.put, setOnce, hedges]
    rfl
  · have hlabels : decodeOption (decodeList decodeString) (list text ls) = .ok (some ls) :=
      (codec_text.list.option fun _ => nofun).reads (a := some ls) fun _ _ _ _ => trivial
    rw [toJson, record, decodeParts]
    simp only [List.map_cons, List.map_nil, decodeMembers, Fields.put, setOnce, hedges, hlabels]
    rfl

/-- An edge that is printed as `null` is not read. -/
theorem isFinite_of_decodeElements {es fs : List Double}
    (h : decodeElements decodeDouble (es.map double) = .ok fs) :
    ∀ x ∈ es, x.isFinite = true := by
  induction es generalizing fs with
  | nil => exact nofun
  | cons x es ih =>
    obtain ⟨y, hy, h⟩ := Except.bind_eq_ok.mp h
    obtain ⟨ys, hys, -⟩ := Except.bind_eq_ok.mp h
    refine List.forall_mem_cons.mpr ⟨?_, ih hys⟩
    by_contra hinfinite
    rw [double, if_neg hinfinite] at hy
    exact absurd hy wrongType_ne_ok

/-- **The edges of an axis are finite** if its parts can be read at all. -/
theorem isFinite_of_decodeParts {a : Axis} {parts : List Double × Option (List String)}
    (h : decodeParts a.toJson = .ok parts) : ∀ x ∈ a.edges, x.isFinite = true := by
  rw [toJson, record, decodeParts] at h
  obtain ⟨f, hf, -⟩ := Except.bind_eq_ok.mp h
  obtain ⟨g, hg, -⟩ := Except.bind_eq_ok.mp hf
  obtain ⟨edges, hset, -⟩ := Except.bind_eq_ok.mp hg
  obtain ⟨es, hes, -⟩ := Except.map_eq_ok.mp hset
  exact isFinite_of_decodeElements hes

/-- **What the text of an axis is read as**: the axis itself, if it can be made again. -/
theorem ofText_toText_eq_ok {a b : Axis}
    (hedges : ∀ x ∈ a.edges, x.isFinite = true → x.Rereads) :
    ofText a.toText = .ok b ↔ b = a ∧ Usable a.edges ∧ a.Labelled := by
  rw [ofText, toText, readText_compact (grammatical_toJson a), decode_eq_ok]
  constructor
  · rintro ⟨parts, hparts, h⟩
    have hfinite := isFinite_of_decodeParts hparts
    rw [decodeParts_toJson fun x hx => ⟨hfinite x hx, hedges x hx (hfinite x hx)⟩] at hparts
    cases hparts
    obtain ⟨htwo, hasc, rfl, hlabels⟩ := ofParts_eq_ok.mp h
    exact ⟨rfl, ⟨htwo, hfinite, hasc⟩, hlabels⟩
  · rintro ⟨rfl, ⟨htwo, hfinite, hasc⟩, hlabels⟩
    exact ⟨_, decodeParts_toJson fun x hx => ⟨hfinite x hx, hedges x hx (hfinite x hx)⟩,
      ofParts_eq_ok.mpr ⟨htwo, hasc, rfl, hlabels⟩⟩

/-- **Axes over whole runs.** The labels of an axis are as many as its bins, whatever was done
with it, and its text is read as the same axis exactly if its edges make a binning. Otherwise the
text is refused. -/
theorem ofText_toText_iff_usable {a : Axis} (ha : a.Reached) :
    (∀ ls, a.labels = some ls → ls.length = a.binCount) ∧
    ((∀ x ∈ a.edges, x.isFinite = true → x.Rereads) →
      (ofText a.toText = .ok a ↔ Usable a.edges) ∧
      (¬Usable a.edges → ∃ e, ofText a.toText = .error e)) := by
  refine ⟨ha.labelled, fun hedges => ⟨?_, fun hne => ?_⟩⟩
  · rw [ofText_toText_eq_ok hedges]
    exact ⟨fun h => h.2.1, fun h => ⟨rfl, h, ha.labelled⟩⟩
  · cases h : ofText a.toText with
    | error e => exact ⟨e, rfl⟩
    | ok b => exact absurd ((ofText_toText_eq_ok hedges).mp h).2.1 hne

/-- An axis of two bins with labels. -/
def signs : Axis := ⟨[⟨0xBFB999999999999A⟩, Double.zero, ⟨0x3FF0000000000000⟩], some ["-", "+"]⟩

/-- The axis is read back; with an edge below it that is infinite, it is not. -/
theorem ofText_toText_iff_usable_signs : signs.Reached ∧ ofText signs.toText = .ok signs ∧
    ∃ e, ofText (signs.setEdges [-Double.infinity, Double.zero]).toText = .error e := by
  have hedges : ofEdges signs.edges = .ok ⟨signs.edges, none⟩ := by decide
  have hlabels : (⟨signs.edges, none⟩ : Axis).withLabels ["-", "+"] = .ok signs := by decide
  have hreached : signs.Reached := .withLabels (.ofEdges hedges) hlabels
  have hprinted : ∀ x ∈ signs.edges, x.isFinite = true → x.Rereads := by decide +kernel
  have hprinted' : ∀ x ∈ [-Double.infinity, Double.zero], x.isFinite = true → x.Rereads := by
    decide +kernel
  exact ⟨hreached, ((ofText_toText_iff_usable hreached).2 hprinted).1.mpr (by decide),
    ((ofText_toText_iff_usable (hreached.setEdges _)).2 hprinted').2 (by decide)⟩

end Axis

end Binning
