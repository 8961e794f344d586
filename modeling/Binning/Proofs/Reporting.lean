import Binning.Proofs.Codec
import Binning.Proofs.Printing

/-!
# Which edges are reported

The command for edges prints one object, with a member for the name of each dimension. The
names of dimensions are any texts, and a name that is made from a number may also be given to
another dimension. If a name occurs twice, the member has the edges of the last dimension of that
name (`Binning.CommandLine.mem_sortMembers_iff`), and those of the others are lost.

So the object reports every dimension exactly if dimensions of the same name have the same
edges, as far as they are printed (`Binning.CommandLine.run_edges_reports`). This is so if all
names are different. Otherwise the command can succeed without a word about a dimension
(`Binning.CommandLine.run_edges_lost`).
-/

namespace Binning

open Outcome

/-- **The last dimension of a name**: it has the name, and none after it does. -/
def Config.IsLastNamed (c : Config) (name : String) (i : Nat) : Prop :=
  c.names[i]? = some name ∧ ∀ j, i < j → c.names[j]? ≠ some name

namespace CommandLine

/-! ### Members in ascending order -/

section Members

variable {α : Type}

/-- The names of members are in strictly ascending order. -/
def Ascending (ms : List (String × α)) : Prop := (ms.map Prod.fst).Pairwise (· < ·)

/-- A member that is put in its place keeps the names in order. -/
theorem Ascending.insertMember {ms : List (String × α)} (h : Ascending ms) (name : String)
    (a : α) : Ascending (insertMember name a ms) := by
  induction ms with
  | nil => exact List.pairwise_singleton _ _
  | cons m ms ih =>
    obtain ⟨n, b⟩ := m
    obtain ⟨hfirst, hrest⟩ := List.pairwise_cons.mp h
    rw [CommandLine.insertMember]
    split
    · next hlt =>
      refine List.pairwise_cons.mpr ⟨fun n' hn' => ?_, h⟩
      rcases List.mem_cons.mp hn' with rfl | hn'
      · exact hlt
      · exact lt_trans hlt (hfirst n' hn')
    · next hnlt =>
      split
      · next heq =>
        subst heq
        exact h
      · next hne =>
        refine List.pairwise_cons.mpr ⟨fun n' hn' => ?_, ih hrest⟩
        rcases mem_names_insertMember.mp hn' with rfl | hn'
        · exact lt_of_le_of_ne (not_lt.mp hnlt) (Ne.symm hne)
        · exact hfirst n' hn'

/-- A member that is put in its place takes that of any other of its name. -/
theorem mem_insertMember_iff {ms : List (String × α)} (h : Ascending ms) {name : String} {a : α}
    {m : String × α} : m ∈ insertMember name a ms ↔ m = (name, a) ∨ m ∈ ms ∧ m.1 ≠ name := by
  induction ms with
  | nil => simp [insertMember]
  | cons m' ms ih =>
    obtain ⟨n, b⟩ := m'
    obtain ⟨hfirst, hrest⟩ := List.pairwise_cons.mp h
    -- All members after the first one have greater names.
    have hgreater (hm : m ∈ ms) : n < m.1 := hfirst m.1 (List.mem_map_of_mem hm)
    rw [insertMember]
    split
    · next hlt =>
      rw [List.mem_cons]
      refine or_congr_right ⟨fun hm => ⟨hm, ?_⟩, And.left⟩
      rcases List.mem_cons.mp hm with rfl | hm
      · exact ne_of_gt hlt
      · exact ne_of_gt (lt_trans hlt (hgreater hm))
    · split
      · next heq =>
        subst heq
        rw [List.mem_cons, List.mem_cons]
        refine or_congr_right ⟨fun hm => ⟨Or.inr hm, ne_of_gt (hgreater hm)⟩, ?_⟩
        rintro ⟨rfl | hm, hne⟩
        · exact absurd rfl hne
        · exact hm
      · next hne =>
        rw [List.mem_cons, List.mem_cons, ih hrest]
        constructor
        · rintro (rfl | rfl | ⟨hm, hother⟩)
          · exact Or.inr ⟨Or.inl rfl, Ne.symm hne⟩
          · exact Or.inl rfl
          · exact Or.inr ⟨Or.inr hm, hother⟩
        · rintro (rfl | ⟨rfl | hm, hother⟩)
          · exact Or.inr (Or.inl rfl)
          · exact Or.inl rfl
          · exact Or.inr (Or.inr ⟨hm, hother⟩)

/-- **Sorted members are in strictly ascending order**, so that no name occurs twice. -/
theorem ascending_sortMembers (ms : List (String × α)) : Ascending (sortMembers ms) := by
  induction ms using List.reverseRecOn with
  | nil => exact List.Pairwise.nil
  | append_singleton ms m ih =>
    rw [sortMembers_concat]
    exact ih.insertMember m.1 m.2

/-- There is one member of a name. -/
theorem Ascending.eq_of_mem {ms : List (String × α)} (h : Ascending ms) {name : String} {a b : α}
    (ha : (name, a) ∈ ms) (hb : (name, b) ∈ ms) : a = b := by
  have hnodup : (ms.map Prod.fst).Nodup := List.Pairwise.imp ne_of_lt h
  exact congrArg Prod.snd (List.inj_on_of_nodup_map hnodup ha hb rfl)

/-- **The last member of a name** is the one that stays. -/
theorem mem_sortMembers_iff {ms : List (String × α)} {name : String} {a : α} :
    (name, a) ∈ sortMembers ms ↔
      ∃ i : Nat, ms[i]? = some (name, a) ∧
        ∀ (j : Nat) (m : String × α), i < j → ms[j]? = some m → m.1 ≠ name := by
  induction ms using List.reverseRecOn with
  | nil => simp [sortMembers]
  | append_singleton ms m ih =>
    rw [sortMembers_concat, mem_insertMember_iff (ascending_sortMembers ms), ih]
    constructor
    · rintro (heq | ⟨⟨i, hi, hlast⟩, hne⟩)
      · refine ⟨ms.length, List.getElem?_concat_length.trans (congrArg some heq.symm),
          fun j m' hj hm' => ?_⟩
        rw [List.getElem?_eq_none (by simpa using hj)] at hm'
        cases hm'
      · obtain ⟨hlt, -⟩ := List.getElem?_eq_some_iff.mp hi
        refine ⟨i, by rwa [List.getElem?_append_left hlt], fun j m' hj hm' => ?_⟩
        rcases Nat.lt_or_ge j ms.length with hj' | hj'
        · rw [List.getElem?_append_left hj'] at hm'
          exact hlast j m' hj hm'
        · rw [List.getElem?_append_right hj'] at hm'
          obtain rfl := List.mem_singleton.mp (List.mem_of_getElem? hm')
          exact Ne.symm hne
    · rintro ⟨i, hi, hlast⟩
      rcases Nat.lt_or_ge i ms.length with hlt | hge
      · rw [List.getElem?_append_left hlt] at hi
        refine Or.inr ⟨⟨i, hi, fun j m' hj hm' => hlast j m' hj ?_⟩, ?_⟩
        · obtain ⟨hlt', -⟩ := List.getElem?_eq_some_iff.mp hm'
          rwa [List.getElem?_append_left hlt']
        · exact Ne.symm (hlast ms.length m hlt List.getElem?_concat_length)
      · rw [List.getElem?_append_right hge] at hi
        exact Or.inl (List.mem_singleton.mp (List.mem_of_getElem? hi))

end Members

/-! ### One member for each name -/

/-- A value for each dimension, under its name: the value of the last dimension of a name stays. -/
theorem mem_sortMembers_names_iff {α : Type} {c : Config} {as : List α}
    (hlen : as.length = c.dimensions.length) {name : String} {a : α} :
    (name, a) ∈ sortMembers (c.names.zip as) ↔
      ∃ i, c.IsLastNamed name i ∧ as[i]? = some a := by
  have hnames : c.names.length = as.length := c.length_names.trans hlen.symm
  rw [mem_sortMembers_iff]
  refine exists_congr fun i => ?_
  rw [List.getElem?_zip_eq_some]
  constructor
  · rintro ⟨⟨hname, ha⟩, hlast⟩
    refine ⟨⟨hname, fun j hj hj' => ?_⟩, ha⟩
    obtain ⟨hlt, -⟩ := List.getElem?_eq_some_iff.mp hj'
    obtain ⟨b, hb⟩ : ∃ b, as[j]? = some b := ⟨_, List.getElem?_eq_getElem (hnames ▸ hlt)⟩
    exact hlast j (name, b) hj (List.getElem?_zip_eq_some.mpr ⟨hj', hb⟩) rfl
  · rintro ⟨⟨hname, hlast⟩, ha⟩
    refine ⟨⟨hname, ha⟩, fun j m hj hm heq => hlast j hj ?_⟩
    rw [← heq]
    exact (List.getElem?_zip_eq_some.mp hm).1

/-- Every name has a last dimension. -/
theorem exists_isLastNamed {c : Config} {name : String} {i : Nat} (h : c.names[i]? = some name) :
    ∃ j, c.IsLastNamed name j := by
  have hmem : name ∈ (c.names.zip c.dimensions).map Prod.fst := by
    rw [List.map_fst_zip (Nat.le_of_eq c.length_names)]
    exact List.mem_of_getElem? h
  obtain ⟨⟨_, d⟩, hd, rfl⟩ := List.mem_map.mp (mem_names_sortMembers.mpr hmem)
  obtain ⟨j, hj, -⟩ := (mem_sortMembers_names_iff rfl).mp hd
  exact ⟨j, hj⟩

/-- **What the command for edges reports.** If the command succeeds, then there are edges for
each dimension, and the printed text is an object. Its members are in ascending order of their
names, which are those of the dimensions. The member of a name has the edges of the last dimension
of that name. So every dimension is reported exactly if dimensions of the same name have
the same edges, as far as they are printed. -/
theorem run_edges_reports {read : String → Option String} {path : String} {report : Report}
    (h : (run read (.edges path)).outcome = .ok report) (hdone : report.ending = .done true) :
    ∃ (text : String) (c : Config) (axes : List Axis) (cuts : CutSet Axis)
      (edges : List (List Double)) (members : List (String × Json)),
      read path = some text ∧ Config.ofText text = .ok c ∧ c.buildAxes = .ok axes ∧
      (c.buildCutSet axes).outcome = .ok cuts ∧
      List.Forall₂ (fun t es => t.flattenedEdges = .ok es) cuts.trees edges ∧
      edges.length = c.dimensions.length ∧
      Json.parse report.output = some (Json.record members) ∧ Ascending members ∧
      (∀ name, name ∈ members.map Prod.fst ↔ name ∈ c.names) ∧
      (∀ name v, (name, v) ∈ members ↔ ∃ i es, c.IsLastNamed name i ∧ edges[i]? = some es ∧
        v = Json.list Json.double es) ∧
      ((∀ (i : Nat) (name : String) (es : List Double), c.names[i]? = some name →
          edges[i]? = some es → (name, Json.list Json.double es) ∈ members) ↔
        ∀ (i j : Nat) (name : String) (es es' : List Double), c.names[i]? = some name →
          c.names[j]? = some name → edges[i]? = some es → edges[j]? = some es' →
            Json.list Json.double es = Json.list Json.double es') := by
  obtain ⟨text, c, axes, cuts, edges, hread, htext, haxes, hcuts, -, hedges, hout⟩ :=
    (run_edges_eq_ok hdone).mp h
  have hlen := Config.length_of_flattenedEdges hcuts hedges
  have hprinted : (edges.map (Json.list Json.double)).length = c.dimensions.length := by
    rw [List.length_map, hlen]
  have hmem (name : String) (v : Json) :
      (name, v) ∈ sortMembers (c.names.zip (edges.map (Json.list Json.double))) ↔
        ∃ i es, c.IsLastNamed name i ∧ edges[i]? = some es ∧ v = Json.list Json.double es := by
    rw [mem_sortMembers_names_iff hprinted]
    simp only [List.getElem?_map, Option.map_eq_some_iff]
    constructor
    · rintro ⟨i, hi, es, hes, rfl⟩
      exact ⟨i, es, hi, hes, rfl⟩
    · rintro ⟨i, es, hi, hes, rfl⟩
      exact ⟨i, hi, es, hes, rfl⟩
  have hasc := ascending_sortMembers (c.names.zip (edges.map (Json.list Json.double)))
  -- Every member is a list of doubles, and what is printed of doubles follows the grammar.
  have hgrammatical : (Json.record
      (sortMembers (c.names.zip (edges.map (Json.list Json.double))))).Grammatical := by
    refine Json.grammatical_record fun m hm => ?_
    obtain ⟨i, es, -, -, hv⟩ := (hmem m.1 m.2).mp hm
    rw [hv]
    exact Json.grammatical_list fun x _ => Json.grammatical_double x
  refine ⟨text, c, axes, cuts, edges, _, hread, htext, haxes, hcuts, mapM_eq_ok.mp hedges, hlen,
    by rw [hout]; exact Json.parse_pretty hgrammatical, hasc, fun name => ?_, hmem, ?_⟩
  · rw [mem_names_sortMembers, List.map_fst_zip]
    rw [hprinted, c.length_names]
  · constructor
    · intro hall i j name es es' hi hj hes hes'
      exact hasc.eq_of_mem (hall i name es hi hes) (hall j name es' hj hes')
    · intro hsame i name es hi hes
      obtain ⟨j, hj⟩ := exists_isLastNamed hi
      obtain ⟨hlt, -⟩ := List.getElem?_eq_some_iff.mp hj.1
      have hlt' : j < edges.length := by
        rwa [hlen, ← c.length_names]
      have hes' : edges[j]? = some edges[j] := List.getElem?_eq_getElem hlt'
      exact (hmem name _).mpr ⟨j, _, hj, hes', hsame i j name es _ hi hj.1 hes hes'⟩

/-! ### Two dimensions -/

/-- A file with two dimensions of a single bin each. The second one has no name of its own. -/
def twoDimensionsText (name : String) : String :=
  "\x7b\"dimensions\":[\x7b\"name\":\"" ++ name ++
    "\",\"axis\":\x7b\"kind\":\"edges\",\"edges\":[0.0,1.0]\x7d," ++
    "\"ranges\":[\x7b\"group_size\":1\x7d]\x7d,\x7b\"axis\":\x7b\"kind\":\"edges\"," ++
    "\"edges\":[0.0,2.0]\x7d,\"ranges\":[\x7b\"group_size\":1\x7d]\x7d]\x7d"

/-- The edges of the first dimension. -/
def upToOne : List Double := [⟨0⟩, ⟨0x3FF0000000000000⟩]

/-- The edges of the second dimension. -/
def upToTwo : List Double := [⟨0⟩, ⟨0x4000000000000000⟩]

/-- The configuration in the file. -/
def twoDimensions (name : String) : Config :=
  ⟨[⟨some name, .edges upToOne, none, [⟨1, none⟩]⟩, ⟨none, .edges upToTwo, none, [⟨1, none⟩]⟩]⟩

/-- The command succeeds, whatever the name of the first dimension is. -/
theorem run_edges_twoDimensions {name : String}
    (htext : Config.ofText (twoDimensionsText name) = .ok (twoDimensions name)) :
    (run (fun _ => some (twoDimensionsText name)) (.edges "two.json")).outcome =
      .ok ⟨edgesText [name, "dim1"] [upToOne, upToTwo], .done true⟩ := by
  have hcuts : ((twoDimensions name).buildCutSet [⟨upToOne, none⟩, ⟨upToTwo, none⟩]).outcome =
      .ok ⟨[⟨some ⟨upToOne, none⟩, ⟨1, 0, 1, 2, 1, by decide⟩,
          [⟨some ⟨upToOne, none⟩, ⟨1, 0, 1, 1, 1, by decide⟩, []⟩]⟩,
        ⟨some ⟨upToTwo, none⟩, ⟨1, 0, 1, 2, 1, by decide⟩,
          [⟨some ⟨upToTwo, none⟩, ⟨1, 0, 1, 1, 1, by decide⟩, []⟩]⟩]⟩ := by rfl
  exact (run_edges_eq_ok rfl).mpr ⟨_, _, _, _, _, rfl, htext, by rfl, hcuts, by rfl, by rfl, by rfl⟩

/-- Dimensions of different names are both reported. -/
theorem run_edges_reports_both : ∃ (report : Report) (members : List (String × Json)),
    (run (fun _ => some (twoDimensionsText "x")) (.edges "two.json")).outcome = .ok report ∧
    report.ending = .done true ∧ Json.parse report.output = some (Json.record members) ∧
    ("x", Json.list Json.double upToOne) ∈ members ∧
    ("dim1", Json.list Json.double upToTwo) ∈ members := by
  have htext : Config.ofText (twoDimensionsText "x") = .ok (twoDimensions "x") := by decide +kernel
  have hrun := run_edges_twoDimensions htext
  obtain ⟨text, c, axes, cuts, edges, members, hread, hc, haxes, hcuts, hedges, -, hparse, -, -, -,
    hreports⟩ := run_edges_reports hrun rfl
  obtain rfl := Option.some.inj hread
  obtain rfl := Except.ok.inj (htext.symm.trans hc)
  obtain rfl : [⟨upToOne, none⟩, ⟨upToTwo, none⟩] = axes := Except.ok.inj haxes
  obtain rfl := Except.ok.inj hcuts
  obtain rfl : edges = [upToOne, upToTwo] := Except.ok.inj (mapM_eq_ok.mpr hedges).symm
  have hnames : (twoDimensions "x").names.Nodup := by decide
  have hall := hreports.mpr fun i j name es es' hi hj hes hes' => by
    obtain ⟨hlt, -⟩ := List.getElem?_eq_some_iff.mp hi
    obtain rfl : i = j := (List.getElem?_inj hlt hnames).mp (hi.trans hj.symm)
    rw [Option.some.inj (hes.symm.trans hes')]
  exact ⟨_, members, hrun, rfl, hparse, hall 0 _ _ rfl rfl, hall 1 _ _ rfl rfl⟩

/-- **A dimension that is lost.** The second dimension has no name, and its number gives it the
name of the first one. The command succeeds and prints the edges of the second dimension only. -/
theorem run_edges_lost : ∃ (cuts : CutSet Axis) (report : Report),
    Config.ofText (twoDimensionsText "dim1") = .ok (twoDimensions "dim1") ∧
    (twoDimensions "dim1").names = ["dim1", "dim1"] ∧
    (twoDimensions "dim1").buildAxes = .ok [⟨upToOne, none⟩, ⟨upToTwo, none⟩] ∧
    ((twoDimensions "dim1").buildCutSet [⟨upToOne, none⟩, ⟨upToTwo, none⟩]).outcome = .ok cuts ∧
    cuts.flattenedEdges = .ok [upToOne, upToTwo] ∧
    (run (fun _ => some (twoDimensionsText "dim1")) (.edges "two.json")).outcome = .ok report ∧
    report.ending = .done true ∧
    Json.parse report.output = some (Json.record [("dim1", Json.list Json.double upToTwo)]) ∧
    ("dim1", Json.list Json.double upToOne) ∉ [("dim1", Json.list Json.double upToTwo)] := by
  have htext : Config.ofText (twoDimensionsText "dim1") = .ok (twoDimensions "dim1") := by
    decide +kernel
  refine ⟨_, _, htext, by decide, by rfl, by rfl, by rfl, run_edges_twoDimensions htext, rfl, ?_,
    ?_⟩
  · refine Json.parse_pretty (Json.grammatical_record fun m hm => ?_)
    obtain rfl := List.mem_singleton.mp hm
    exact Json.grammatical_list fun x _ => Json.grammatical_double x
  · intro hmem
    have heq := (Prod.mk.inj (List.mem_singleton.mp hmem)).2
    have hchars := congrArg Json.compact heq
    revert hchars
    decide +kernel

end CommandLine

end Binning
