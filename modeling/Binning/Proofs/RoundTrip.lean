import Binning.Config.Json
import Binning.Proofs.Codec

/-!
# Configurations are read as they were printed

A configuration that was read from any text is read again from its own text
(`Binning.Config.ofText_toText`). The first text may be written in many ways: records are objects
or sequences, members come in any order and some of them mean nothing, integers stand for doubles.
The own text is written in one way only. So nothing that a configuration holds is lost when it is
printed, and nothing that is printed is refused.

The parts are ranges, axes, dimensions and configurations. Each of them has a codec, if its
numbers fit their types (`Binning.Config.Legal`), and its decoder ensures that they do. What the
decoders cannot ensure is that a double survives its numeral, which is assumed of the doubles of
the configuration (`Binning.Config.doubles`).

The axis is the part that could break this. It is taken in as a whole before its kind decides what
its members are, and then each of its numbers has to be in the range of doubles, the number of
bins too; and its kind may stand anywhere, but what is printed has it first
(`Binning.AxisSpec.decodeSound_record`).
-/

namespace Binning

open Json

/-! ### Ranges -/

namespace RangeSpec

/-- The numbers of a range have 64 bits. -/
def InRange (r : RangeSpec) : Prop := IsSigned r.size ∧ ∀ b ∈ r.bins, IsSigned b

/-- A range is read as it was printed. -/
theorem codec : Codec 1 toJson decode InRange := by
  have hbins := codec_signed.option fun _ => nofun
  refine ⟨fun {r} hr => printable_record ?_, fun {r} hr => ?_⟩
  · rw [List.forall_mem_cons, List.forall_mem_singleton]
    exact ⟨codec_signed.printable hr.1, hbins.printable hr.2⟩
  · rw [toJson, record, decode]
    simp only [List.map_cons, List.map_nil, decodeMembers, Fields.put, setOnce,
      codec_signed.reads hr.1, hbins.reads hr.2]
    rfl

/-- The numbers that have been read have 64 bits. -/
def Fields.InRange (f : Fields) : Prop :=
  (∀ n ∈ f.size, IsSigned n) ∧ ∀ bins ∈ f.bins, ∀ n ∈ bins, IsSigned n

/-- Every member that is put in keeps this. -/
theorem Fields.InRange.put {f f' : Fields} (hf : f.InRange) {name : String} {v : Json}
    (h : f.put name v = .ok f') : f'.InRange := by
  unfold Fields.put at h
  split at h
  · obtain ⟨size, hsize, h⟩ := Except.bind_eq_ok.mp h
    cases h
    exact ⟨ensures_signed.setOnce hsize, hf.2⟩
  · obtain ⟨bins, hbins, h⟩ := Except.bind_eq_ok.mp h
    cases h
    exact ⟨hf.1, ensures_signed.option.setOnce hbins⟩
  · cases h
    exact hf

/-- The numbers of a range that is read have 64 bits, in either form of the range. -/
theorem ensures : Ensures decode InRange := by
  intro v r h
  cases v with
  | object ms =>
    obtain ⟨f, hf, h⟩ := Except.bind_eq_ok.mp h
    obtain ⟨size, hsize, h⟩ := Except.bind_eq_ok.mp h
    cases h
    have hfields : f.InRange :=
      decodeMembers_induction (fun hs => hs.put) (by simp [Fields.InRange]) hf
    exact ⟨hfields.1 size (require_eq_ok.mp hsize),
      fun n hn => hfields.2 _ (Option.join_eq_some_iff.mp hn) n rfl⟩
  | array vs =>
    obtain ⟨⟨size, vs⟩, hsize, h⟩ := Except.bind_eq_ok.mp h
    obtain ⟨⟨bins, vs⟩, hbins, h⟩ := Except.bind_eq_ok.mp h
    obtain ⟨_, -, h⟩ := Except.bind_eq_ok.mp h
    cases h
    exact ⟨ensures_signed.takeField hsize, ensures_signed.option.takeDefault (by simp) hbins⟩
  | _ => exact absurd h wrongType_ne_ok

end RangeSpec

/-! ### Axes -/

namespace AxisSpec

/-- The doubles of an axis. -/
def doubles : AxisSpec → List Double
  | .uniform _ low high => [low, high]
  | .edges es => es

/-- The number of bins of an axis has 64 bits. -/
def InRange : AxisSpec → Prop
  | .uniform bins _ _ => IsUnsigned bins
  | .edges _ => True

/-- **The numbers of an axis fit their types**, and `P` holds of its doubles. -/
structure Legal (P : Double → Prop) (a : AxisSpec) : Prop where
  inRange : a.InRange
  doubles : ∀ x ∈ a.doubles, P x

/-- Without a kind, the members stay as they are. -/
theorem splitKind_of_forall {kind : Option Kind} {ms : List (Option String × Json)}
    (h : ∀ m ∈ ms, m.1 ≠ some "kind") : splitKind kind ms = .ok (kind, ms) := by
  induction ms with
  | nil => rfl
  | cons m ms ih =>
    obtain ⟨hfirst, hrest⟩ := List.forall_mem_cons.mp h
    rw [splitKind, if_neg hfirst, ih hrest]
    rfl

/-- An axis whose kind comes first is read by its kind. -/
theorem decodeSound_record {name : String} (kind : Kind) {ms : List (String × Json)}
    (hkind : decodeKind (text name) = .ok kind) (h : ∀ m ∈ ms, m.1 ≠ "kind") :
    decodeSound (record (("kind", text name) :: ms)) =
      ofMembers (ms.map fun m => (some m.1, m.2)) kind := by
  have hrest : splitKind (some kind) (ms.map fun m => (some m.1, m.2)) =
      .ok (some kind, ms.map fun m => (some m.1, m.2)) := by
    refine splitKind_of_forall fun m hm => ?_
    obtain ⟨m', hm', rfl⟩ := List.mem_map.mp hm
    exact fun heq => h m' hm' (Option.some.inj heq)
  rw [record, List.map_cons, decodeSound, splitKind, if_pos rfl, setOnce, hkind]
  exact congrArg (· >>= _) hrest

/-- An axis is two levels deep. -/
theorem printable {a : AxisSpec} (ha : a.Legal Double.IsPrinted) : Printable 2 a.toJson := by
  have hkind : ∀ kind, Printable 1 (text kind) := fun kind =>
    (printable_text kind).mono (by decide)
  cases a with
  | uniform bins low high =>
    obtain ⟨hlow, hrest⟩ := List.forall_mem_cons.mp ha.doubles
    have hhigh := codec_double.printable (List.forall_mem_singleton.mp hrest)
    refine printable_record ?_
    simpa using ⟨hkind _, (codec_unsigned.printable ha.inRange).mono (by decide),
      (codec_double.printable hlow).mono (by decide), hhigh.mono (by decide)⟩
  | edges es =>
    refine printable_record ?_
    simpa using ⟨hkind _, codec_double.list.printable ha.doubles⟩

/-- An axis is read as it was printed. It is shallow enough wherever it stands. -/
theorem codec : Codec 2 toJson decode (Legal Double.IsPrinted) := by
  refine ⟨printable, fun {a} ha => ?_⟩
  have hsound : a.toJson.sound depthAbove = true := by
    have h := printable ha
    rw [sound, h.definite, Bool.true_and]
    exact decide_eq_true ((Nat.add_le_add_right h.depth_le depthAbove).trans (by decide))
  rw [decode, if_pos hsound]
  cases a with
  | uniform bins low high =>
    obtain ⟨hlow, hrest⟩ := List.forall_mem_cons.mp ha.doubles
    rw [toJson, decodeSound_record .uniform rfl (by simp), ofMembers]
    simp only [List.map_cons, List.map_nil, decodeMembers, UniformFields.put, setOnce,
      codec_unsigned.reads ha.inRange, codec_double.reads hlow,
      codec_double.reads (List.forall_mem_singleton.mp hrest)]
    rfl
  | edges es =>
    have hes : decodeList decodeDouble (list double es) = .ok es :=
      codec_double.list.reads ha.doubles
    rw [toJson, decodeSound_record .edges rfl (by simp), ofMembers]
    simp only [List.map_cons, List.map_nil, decodeMembers, putEdges, setOnce, hes]
    rfl

/-- What has been read of a uniform axis. -/
def UniformFields.Legal (f : UniformFields) : Prop :=
  (∀ n ∈ f.bins, IsUnsigned n) ∧ (∀ x ∈ f.low, x.isFinite = true) ∧
    ∀ x ∈ f.high, x.isFinite = true

/-- Every member that is put in keeps this. -/
theorem UniformFields.Legal.put {f f' : UniformFields} (hf : f.Legal) {name : String} {v : Json}
    (h : f.put name v = .ok f') : f'.Legal := by
  unfold UniformFields.put at h
  split at h
  · obtain ⟨bins, hbins, h⟩ := Except.bind_eq_ok.mp h
    cases h
    exact ⟨ensures_unsigned.setOnce hbins, hf.2⟩
  · obtain ⟨low, hlow, h⟩ := Except.bind_eq_ok.mp h
    cases h
    exact ⟨hf.1, ensures_double.setOnce hlow, hf.2.2⟩
  · obtain ⟨high, hhigh, h⟩ := Except.bind_eq_ok.mp h
    cases h
    exact ⟨hf.1, hf.2.1, ensures_double.setOnce hhigh⟩
  · cases h
    exact hf

/-- A member is put into the only field, or passed over. -/
theorem putEdges_eq (f : Option (List Double)) (name : String) (v : Json) :
    putEdges f name v = setOnce "edges" (decodeList decodeDouble) f v ∨
      putEdges f name v = .ok f := by
  unfold putEdges
  split
  · exact Or.inl rfl
  · exact Or.inr rfl

/-- A uniform axis of numbers in range. -/
theorem legal_uniform {P : Double → Prop} {bins : Nat} {low high : Double} (hbins : IsUnsigned bins)
    (hlow : P low) (hhigh : P high) : (AxisSpec.uniform bins low high).Legal P :=
  ⟨hbins, List.forall_mem_cons.mpr ⟨hlow, List.forall_mem_singleton.mpr hhigh⟩⟩

/-- What is read of the members of an axis. -/
theorem legal_of_ofMembers {ms : List (Option String × Json)} {kind : Kind} {a : AxisSpec}
    (h : ofMembers ms kind = .ok a) : a.Legal fun x => x.isFinite = true := by
  cases kind with
  | uniform =>
    obtain ⟨f, hf, h⟩ := Except.bind_eq_ok.mp h
    obtain ⟨bins, hbins, h⟩ := Except.bind_eq_ok.mp h
    obtain ⟨low, hlow, h⟩ := Except.bind_eq_ok.mp h
    obtain ⟨high, hhigh, h⟩ := Except.bind_eq_ok.mp h
    cases h
    have hfields : f.Legal :=
      decodeMembers_induction (fun hs => hs.put) (by simp [UniformFields.Legal]) hf
    exact legal_uniform (hfields.1 bins (require_eq_ok.mp hbins))
      (hfields.2.1 low (require_eq_ok.mp hlow)) (hfields.2.2 high (require_eq_ok.mp hhigh))
  | edges =>
    obtain ⟨f, hf, h⟩ := Except.bind_eq_ok.mp h
    obtain ⟨es, hes, h⟩ := Except.bind_eq_ok.mp h
    cases h
    exact ⟨trivial,
      ensures_double.list.decodeMembers putEdges_eq hf es (require_eq_ok.mp hes)⟩

/-- What is read of the elements of an axis. -/
theorem legal_of_ofElements {vs : List Json} {kind : Kind} {a : AxisSpec}
    (h : ofElements vs kind = .ok a) : a.Legal fun x => x.isFinite = true := by
  cases kind with
  | uniform =>
    obtain ⟨⟨bins, rest⟩, hbins, h⟩ := Except.bind_eq_ok.mp h
    obtain ⟨⟨low, rest⟩, hlow, h⟩ := Except.bind_eq_ok.mp h
    obtain ⟨⟨high, rest⟩, hhigh, h⟩ := Except.bind_eq_ok.mp h
    obtain ⟨_, -, h⟩ := Except.bind_eq_ok.mp h
    cases h
    exact legal_uniform (ensures_unsigned.takeField hbins) (ensures_double.takeField hlow)
      (ensures_double.takeField hhigh)
  | edges =>
    obtain ⟨⟨es, rest⟩, hes, h⟩ := Except.bind_eq_ok.mp h
    obtain ⟨_, -, h⟩ := Except.bind_eq_ok.mp h
    cases h
    exact ⟨trivial, ensures_double.list.takeField hes⟩

/-- **The numbers of an axis that is read** have 64 bits, or are finite. -/
theorem ensures : Ensures decode (Legal fun x => x.isFinite = true) := by
  intro v a h
  rw [decode] at h
  split at h
  · cases v with
    | object ms =>
      obtain ⟨⟨kind, rest⟩, -, h⟩ := Except.bind_eq_ok.mp h
      obtain ⟨kind, -, h⟩ := Except.bind_eq_ok.mp h
      exact legal_of_ofMembers h
    | array vs =>
      cases vs with
      | nil => cases h
      | cons v vs =>
        obtain ⟨kind, -, h⟩ := Except.bind_eq_ok.mp h
        exact legal_of_ofElements h
    | _ => exact absurd h wrongType_ne_ok
  · cases h

end AxisSpec

/-! ### Dimensions -/

namespace Dimension

/-- **The numbers of a dimension fit their types**, and `P` holds of the doubles of its axis. -/
structure Legal (P : Double → Prop) (d : Dimension) : Prop where
  axis : d.axis.Legal P
  ranges : ∀ r ∈ d.ranges, r.InRange

/-- A dimension is read as it was printed. What is missing is printed as `null`. -/
theorem codec : Codec 3 toJson decode (Legal Double.IsPrinted) := by
  have hname := codec_text.option fun _ => nofun
  have hlabels := codec_text.list.option fun _ => nofun
  have hranges := RangeSpec.codec.list
  refine ⟨fun {d} hd => printable_record ?_, fun {d} hd => ?_⟩
  · simpa using ⟨(hname.printable fun _ _ => trivial).mono (by decide),
      AxisSpec.codec.printable hd.axis, (hlabels.printable fun _ _ _ _ => trivial).mono (by decide),
      hranges.printable hd.ranges⟩
  · rw [toJson, record, decode]
    simp only [List.map_cons, List.map_nil, decodeMembers, Fields.put, setOnce,
      hname.reads fun _ _ => trivial, AxisSpec.codec.reads hd.axis,
      hlabels.reads fun _ _ _ _ => trivial, hranges.reads hd.ranges]
    rfl

/-- What has been read of a dimension. -/
def Fields.Legal (f : Fields) : Prop :=
  (∀ a ∈ f.axis, a.Legal fun x => x.isFinite = true) ∧ ∀ rs ∈ f.ranges, ∀ r ∈ rs, r.InRange

/-- Every member that is put in keeps this. -/
theorem Fields.Legal.put {f f' : Fields} (hf : f.Legal) {name : String} {v : Json}
    (h : f.put name v = .ok f') : f'.Legal := by
  unfold Fields.put at h
  split at h
  · obtain ⟨name, -, h⟩ := Except.bind_eq_ok.mp h
    cases h
    exact hf
  · obtain ⟨axis, haxis, h⟩ := Except.bind_eq_ok.mp h
    cases h
    exact ⟨AxisSpec.ensures.setOnce haxis, hf.2⟩
  · obtain ⟨labels, -, h⟩ := Except.bind_eq_ok.mp h
    cases h
    exact hf
  · obtain ⟨ranges, hranges, h⟩ := Except.bind_eq_ok.mp h
    cases h
    exact ⟨hf.1, RangeSpec.ensures.list.setOnce hranges⟩
  · cases h
    exact hf

theorem ensures : Ensures decode (Legal fun x => x.isFinite = true) := by
  intro v d h
  cases v with
  | object ms =>
    obtain ⟨f, hf, h⟩ := Except.bind_eq_ok.mp h
    obtain ⟨axis, haxis, h⟩ := Except.bind_eq_ok.mp h
    cases h
    have hfields : f.Legal :=
      decodeMembers_induction (fun hs => hs.put) (by simp [Fields.Legal]) hf
    refine ⟨hfields.1 axis (require_eq_ok.mp haxis), ?_⟩
    dsimp only
    cases hranges : f.ranges with
    | none => exact nofun
    | some rs => exact hfields.2 rs hranges
  | array vs =>
    obtain ⟨⟨name, vs⟩, -, h⟩ := Except.bind_eq_ok.mp h
    obtain ⟨⟨axis, vs⟩, haxis, h⟩ := Except.bind_eq_ok.mp h
    obtain ⟨⟨labels, vs⟩, -, h⟩ := Except.bind_eq_ok.mp h
    obtain ⟨⟨ranges, vs⟩, hranges, h⟩ := Except.bind_eq_ok.mp h
    obtain ⟨_, -, h⟩ := Except.bind_eq_ok.mp h
    cases h
    exact ⟨AxisSpec.ensures.takeField haxis, RangeSpec.ensures.list.takeDefault (by simp) hranges⟩
  | _ => exact absurd h wrongType_ne_ok

end Dimension

/-! ### Configurations -/

namespace Config

/-- **The doubles of a configuration.** -/
def doubles (c : Config) : List Double := c.dimensions.flatMap fun d => d.axis.doubles

/-- **The numbers of a configuration fit their types**, and `P` holds of its doubles. -/
def Legal (P : Double → Prop) (c : Config) : Prop := ∀ d ∈ c.dimensions, d.Legal P

/-- A configuration is read as it was printed. -/
theorem codec : Codec 5 toJson decode (Legal Double.IsPrinted) := by
  refine ⟨fun {c} hc => printable_record ?_, fun {c} hc => ?_⟩
  · exact List.forall_mem_singleton.mpr (Dimension.codec.list.printable hc)
  · rw [toJson, record, decode]
    simp only [List.map_cons, List.map_nil, decodeMembers, putDimensions, setOnce,
      Dimension.codec.list.reads hc]
    rfl

/-- A member is put into the only field, or passed over. -/
theorem putDimensions_eq (f : Option (List Dimension)) (name : String) (v : Json) :
    putDimensions f name v = setOnce "dimensions" (decodeList Dimension.decode) f v ∨
      putDimensions f name v = .ok f := by
  unfold putDimensions
  split
  · exact Or.inl rfl
  · exact Or.inr rfl

theorem ensures : Ensures decode (Legal fun x => x.isFinite = true) := by
  intro v c h
  cases v with
  | object ms =>
    obtain ⟨f, hf, h⟩ := Except.bind_eq_ok.mp h
    obtain ⟨ds, hds, h⟩ := Except.bind_eq_ok.mp h
    cases h
    exact Dimension.ensures.list.decodeMembers putDimensions_eq hf ds (require_eq_ok.mp hds)
  | array vs =>
    obtain ⟨⟨ds, vs⟩, hds, h⟩ := Except.bind_eq_ok.mp h
    obtain ⟨_, -, h⟩ := Except.bind_eq_ok.mp h
    cases h
    exact Dimension.ensures.list.takeField hds
  | _ => exact absurd h wrongType_ne_ok

/-- A condition on all doubles is met by each of them. -/
theorem Legal.of_doubles {P Q : Double → Prop} {c : Config} (hc : c.Legal P)
    (h : ∀ x ∈ c.doubles, P x → Q x) : c.Legal Q := by
  intro d hd
  refine ⟨⟨(hc d hd).axis.inRange, fun x hx => ?_⟩, (hc d hd).ranges⟩
  exact h x (List.mem_flatMap.mpr ⟨d, hd, hx⟩) ((hc d hd).axis.doubles x hx)

/-- **A configuration that was read is read again from its own text**, and is the same. -/
theorem ofText_toText {s : String} {c : Config} (h : ofText s = .ok c)
    (hdoubles : ∀ x ∈ c.doubles, x.isFinite = true → x.Rereads) : ofText c.toText = .ok c := by
  have hread : c.Legal fun x => x.isFinite = true := ensures.readText h
  have hprinted : c.Legal Double.IsPrinted :=
    hread.of_doubles fun x hx hfinite => ⟨hfinite, hdoubles x hx hfinite⟩
  exact codec.readText hprinted

/-- A text with records of both forms, members in any order, a member of another name, escapes,
and integers at the ends of their ranges and in place of doubles. -/
def mixedText : String :=
  "[[[\"\\ud83d\\ude00\",[\"uniform\",18446744073709551615,-0,1],null," ++
  "[\x7b\"x\":0,\"bins\":null,\"group_size\":-9223372036854775808\x7d]]," ++
  "\x7b\"axis\":\x7b\"edges\":[-25e-2,0.1],\"kind\":\"edges\"\x7d\x7d]]"

/-- The configuration of that text. -/
def mixed : Config where
  dimensions := [
    ⟨some "😀", .uniform 0xFFFFFFFFFFFFFFFF (-Double.zero) ⟨0x3FF0000000000000⟩, none,
      [⟨-0x8000000000000000, none⟩]⟩,
    ⟨none, .edges [⟨0xBFD0000000000000⟩, ⟨0x3FB999999999999A⟩], none, []⟩]

theorem ofText_toText_mixed : ofText mixedText = .ok mixed ∧
    (∀ x ∈ mixed.doubles, x.isFinite = true → x.Rereads) ∧ ofText mixed.toText = .ok mixed := by
  have hread : ofText mixedText = .ok mixed := by decide +kernel
  have hdoubles : ∀ x ∈ mixed.doubles, x.isFinite = true → x.Rereads := by decide +kernel
  exact ⟨hread, hdoubles, ofText_toText hread hdoubles⟩

end Config

end Binning
