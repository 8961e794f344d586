import Binning.Json.Decode
import Binning.Proofs.Finite
import Binning.Proofs.JsonText
import Binning.Proofs.Outcome

/-!
# Values that are printed and read

What is printed of a value should be read as the same value. This is a property of a printer and a
decoder together (`Binning.Json.Codec`), and it is built up as they are: from strings and numbers
over options and sequences to records. Not every value has it. An integer must be in the range of
its decoder, a double must be finite, since JSON has no number for any other, and it must survive
its own numeral (`Binning.Double.Rereads`). That last point is an assumption wherever it occurs:
reading a numeral rounds twice, and the result may be a neighbour of the double that was printed.

Conversely, a decoder ensures some of these conditions by itself (`Binning.Json.Ensures`): what
it has read is in range and finite, however it was written.

A printed value also has to be acceptable as a part of a text. `Binning.Json.Printable` collects
what that takes: numerals of the grammar of JSON, in the range of doubles, and a bound on the depth.
-/

namespace Binning

/-- **A double survives its numeral**: what JSON prints of it is read as the same double. -/
def Double.Rereads (x : Double) : Prop := Double.ofNumeral? (Layout.json.numeral x) = some x

instance : DecidablePred Double.Rereads := fun _ => inferInstanceAs (Decidable (_ = _))

/-- **A double that is printed and read**: it is finite, and survives its numeral. -/
def Double.IsPrinted (x : Double) : Prop := x.isFinite = true ∧ x.Rereads

namespace Json

variable {α : Type}

/-! ### What can be printed -/

/-- **A value that is acceptable in a text**, with its depth. -/
structure Printable (depth : Nat) (v : Json) : Prop where
  grammatical : v.Grammatical
  definite : v.definite = true
  depth_le : v.depth ≤ depth

/-- A larger bound on the depth. -/
theorem Printable.mono {depth depth' : Nat} (hle : depth ≤ depth') {v : Json}
    (h : Printable depth v) : Printable depth' v :=
  ⟨h.grammatical, h.definite, h.depth_le.trans hle⟩

theorem printable_null : Printable 0 .null := ⟨trivial, rfl, Nat.le_refl 0⟩

theorem printable_text (s : String) : Printable 0 (text s) := ⟨trivial, rfl, Nat.le_refl 0⟩

/-- Integers of at most 64 bits can be printed. -/
theorem printable_int {n : Int} (hn : n.natAbs < Double.significandBound) : Printable 0 (int n) :=
  ⟨Numeral.grammatical_ofInt n, Double.isSome_ofNumeral_ofInt hn, Nat.le_refl 0⟩

/-- Any double has a value that follows the grammar. -/
theorem grammatical_double (x : Double) : (double x).Grammatical := by
  rw [double]
  split
  · exact Layout.grammatical_numeral Layout.json x
  · exact trivial

/-- The value of a finite double. -/
theorem double_of_isFinite {x : Double} (h : x.isFinite = true) :
    double x = .number (Layout.json.numeral x) := if_pos h

theorem printable_double {x : Double} (hx : x.IsPrinted) : Printable 0 (double x) := by
  rw [double_of_isFinite hx.1]
  exact ⟨Layout.grammatical_numeral Layout.json x, Option.isSome_of_eq_some hx.2, Nat.le_refl 0⟩

theorem grammatical_list {f : α → Json} {as : List α} (h : ∀ a ∈ as, (f a).Grammatical) :
    (list f as).Grammatical := by
  induction as with
  | nil => exact trivial
  | cons a as ih =>
    exact ⟨h a List.mem_cons_self, ih fun b hb => h b (List.mem_cons_of_mem a hb)⟩

/-- A sequence of printable values is one level deeper. -/
theorem printable_list {depth : Nat} {f : α → Json} {as : List α}
    (h : ∀ a ∈ as, Printable depth (f a)) : Printable (depth + 1) (list f as) := by
  have helements : definiteElements (as.map f) = true ∧ depthOfElements (as.map f) ≤ depth := by
    induction as with
    | nil => exact ⟨rfl, Nat.zero_le depth⟩
    | cons a as ih =>
      obtain ⟨hfirst, hrest⟩ := List.forall_mem_cons.mp h
      obtain ⟨hdefinite, hdepth⟩ := ih hrest
      refine ⟨?_, max_le hfirst.depth_le hdepth⟩
      rw [List.map_cons, definiteElements, hfirst.definite, hdefinite]
      rfl
  exact ⟨grammatical_list fun a ha => (h a ha).grammatical, helements.1,
    Nat.succ_le_succ helements.2⟩

theorem grammatical_record {ms : List (String × Json)} (h : ∀ m ∈ ms, m.2.Grammatical) :
    (record ms).Grammatical := by
  induction ms with
  | nil => exact trivial
  | cons m ms ih =>
    exact ⟨h m List.mem_cons_self, ih fun m' hm' => h m' (List.mem_cons_of_mem m hm')⟩

/-- An object with printable members is one level deeper. -/
theorem printable_record {depth : Nat} {ms : List (String × Json)}
    (h : ∀ m ∈ ms, Printable depth m.2) : Printable (depth + 1) (record ms) := by
  have hmembers : definiteMembers (ms.map fun m => (some m.1, m.2)) = true ∧
      depthOfMembers (ms.map fun m => (some m.1, m.2)) ≤ depth := by
    induction ms with
    | nil => exact ⟨rfl, Nat.zero_le depth⟩
    | cons m ms ih =>
      obtain ⟨hfirst, hrest⟩ := List.forall_mem_cons.mp h
      obtain ⟨hdefinite, hdepth⟩ := ih hrest
      refine ⟨?_, max_le hfirst.depth_le hdepth⟩
      rw [List.map_cons, definiteMembers, hfirst.definite, hdefinite]
      rfl
  exact ⟨grammatical_record fun m hm => (h m hm).grammatical, hmembers.1,
    Nat.succ_le_succ hmembers.2⟩

/-! ### What is printed and read -/

/-- **What is printed of a value is read as the same value**, if `P` holds of it. -/
structure Codec (depth : Nat) (print : α → Json) (read : Decoder α) (P : α → Prop) : Prop where
  printable : ∀ {a}, P a → Printable depth (print a)
  reads : ∀ {a}, P a → read (print a) = .ok a

/-- The text of a value is read as the value is decoded. -/
theorem readText_compact {read : Decoder α} {v : Json} (hv : v.Grammatical) {a : α} :
    readText read v.compact = .ok a ↔ read v = .ok a := by
  rw [readText, parse_compact hv]
  dsimp only
  cases read v with
  | error e => exact ⟨nofun, nofun⟩
  | ok b => exact Iff.rfl

/-- A printed value is read from its text. -/
theorem Codec.readText {depth : Nat} {print : α → Json} {read : Decoder α} {P : α → Prop}
    (h : Codec depth print read P) {a : α} (ha : P a) :
    Json.readText read (print a).compact = .ok a :=
  (readText_compact (h.printable ha).grammatical).mpr (h.reads ha)

theorem codec_text : Codec 0 text decodeString fun _ => True :=
  ⟨fun _ => printable_text _, fun _ => rfl⟩

/-- An integer that is told apart from doubles is read as itself, in a range that contains it. -/
theorem decodeIntegerIn_int {inRange : Int → Bool} (wanted : Wanted) {n : Int}
    (hinteger : isInteger n = true) (hrange : inRange n = true) :
    decodeIntegerIn inRange wanted (int n) = .ok n := by
  have hread : integer? (Numeral.ofInt n) = some n := by
    rw [integer?, Numeral.toInt?_ofInt]
    exact Option.filter_eq_some_iff.mpr ⟨rfl, hinteger⟩
  rw [int, decodeIntegerIn, hread]
  dsimp only
  rw [if_pos hrange]

/-- A 64-bit integer with a sign. -/
def IsSigned (n : Int) : Prop := -0x8000000000000000 ≤ n ∧ n < 0x8000000000000000

instance : DecidablePred IsSigned := fun _ => inferInstanceAs (Decidable (_ ∧ _))

theorem codec_signed : Codec 0 int decodeSigned IsSigned := by
  refine ⟨fun {n} hn => printable_int ?_, fun {n} hn => ?_⟩
  · rw [IsSigned] at hn
    rw [Double.significandBound]
    omega
  · refine decodeIntegerIn_int .signed (decide_eq_true ?_) (decide_eq_true hn.2)
    rw [IsSigned] at hn
    omega

/-- A 64-bit integer without a sign. -/
def IsUnsigned (n : Nat) : Prop := n < Double.significandBound

instance : DecidablePred IsUnsigned := fun _ => inferInstanceAs (Decidable (_ < _))

theorem codec_unsigned : Codec 0 (fun n : Nat => int n) decodeUnsigned IsUnsigned := by
  refine ⟨fun {n} hn => printable_int hn, fun {n} hn => ?_⟩
  have hinteger : isInteger n = true := by
    refine decide_eq_true ?_
    rw [IsUnsigned, Double.significandBound] at hn
    omega
  rw [decodeUnsigned,
    decodeIntegerIn_int .unsigned hinteger (decide_eq_true (Int.natCast_nonneg n)),
    Except.map, Int.toNat_natCast]

theorem codec_double : Codec 0 double decodeDouble Double.IsPrinted := by
  refine ⟨printable_double, fun {x} hx => ?_⟩
  rw [double_of_isFinite hx.1, decodeDouble, hx.2]

/-- The option of a value that is never printed as `null`. -/
theorem Codec.option {depth : Nat} {print : α → Json} {read : Decoder α} {P : α → Prop}
    (h : Codec depth print read P) (hnull : ∀ a, print a ≠ .null) :
    Codec depth (Json.option print) (decodeOption read) fun o => ∀ a ∈ o, P a := by
  refine ⟨fun {o} ho => ?_, fun {o} ho => ?_⟩
  · cases o with
    | none => exact printable_null.mono (Nat.zero_le depth)
    | some a => exact h.printable (ho a rfl)
  · cases o with
    | none => rfl
    | some a =>
      rw [Json.option, decodeOption, h.reads (ho a rfl)]
      · rfl
      · exact hnull a

/-- A sequence of values. -/
theorem Codec.list {depth : Nat} {print : α → Json} {read : Decoder α} {P : α → Prop}
    (h : Codec depth print read P) :
    Codec (depth + 1) (Json.list print) (decodeList read) fun as => ∀ a ∈ as, P a := by
  refine ⟨fun has => printable_list fun a ha => h.printable (has a ha), fun {as} has => ?_⟩
  rw [Json.list, decodeList]
  induction as with
  | nil => rfl
  | cons a as ih =>
    rw [List.map_cons, decodeElements, h.reads (has a List.mem_cons_self),
      ih fun b hb => has b (List.mem_cons_of_mem a hb)]
    rfl

/-! ### What a decoder ensures -/

/-- **The decoder ensures a condition**: whatever it reads meets it. -/
def Ensures (read : Decoder α) (P : α → Prop) : Prop := ∀ v a, read v = .ok a → P a

/-- What is read of a text meets the condition of its decoder. -/
theorem Ensures.readText {read : Decoder α} {P : α → Prop} (h : Ensures read P) {s : String} {a : α}
    (hread : Json.readText read s = .ok a) : P a := by
  rw [Json.readText] at hread
  split at hread
  · cases hread
  · next v _ =>
    split at hread
    · next hv =>
      cases hread
      exact h v a hv
    · cases hread

theorem wrongType_ne_ok {wanted : Wanted} {v : Json} {a : α} : wrongType wanted v ≠ .ok a := by
  intro h
  obtain ⟨f, -, hf⟩ := Except.bind_eq_ok.mp h
  cases hf

/-- An integer that is read is in range. -/
theorem decodeIntegerIn_eq_ok {inRange : Int → Bool} {wanted : Wanted} {v : Json} {i : Int}
    (h : decodeIntegerIn inRange wanted v = .ok i) : isInteger i = true ∧ inRange i = true := by
  cases v with
  | number n =>
    rw [decodeIntegerIn] at h
    split at h
    · next hinteger =>
      split at h
      · next hrange =>
        cases h
        exact ⟨(Option.filter_eq_some_iff.mp hinteger).2, hrange⟩
      · cases h
    · exact absurd h wrongType_ne_ok
  | _ => exact absurd h wrongType_ne_ok

theorem ensures_signed : Ensures decodeSigned IsSigned := by
  intro v i h
  obtain ⟨hinteger, hrange⟩ := decodeIntegerIn_eq_ok h
  exact ⟨(of_decide_eq_true hinteger).1, of_decide_eq_true hrange⟩

theorem ensures_unsigned : Ensures decodeUnsigned IsUnsigned := by
  intro v n h
  obtain ⟨i, hi, rfl⟩ := Except.map_eq_ok.mp h
  have hinteger := of_decide_eq_true (decodeIntegerIn_eq_ok hi).1
  rw [IsUnsigned, Double.significandBound]
  omega

/-- A double that is read is finite. -/
theorem ensures_double : Ensures decodeDouble fun x => x.isFinite = true := by
  intro v x h
  cases v with
  | number n =>
    rw [decodeDouble] at h
    split at h
    · next hread =>
      cases h
      exact Double.isFinite_of_ofNumeral hread
    · cases h
  | _ => exact absurd h wrongType_ne_ok

/-- An optional value. -/
theorem Ensures.option {read : Decoder α} {P : α → Prop} (h : Ensures read P) :
    Ensures (decodeOption read) fun o => ∀ a ∈ o, P a := by
  intro v o ho
  cases v with
  | null =>
    cases ho
    exact nofun
  | _ =>
    obtain ⟨a, ha, rfl⟩ := Except.map_eq_ok.mp ho
    rintro b ⟨⟩
    exact h _ _ ha

/-- The elements of a sequence. -/
theorem Ensures.list {read : Decoder α} {P : α → Prop} (h : Ensures read P) :
    Ensures (decodeList read) fun as => ∀ a ∈ as, P a := by
  intro v as has
  cases v with
  | array vs =>
    rw [decodeList] at has
    induction vs generalizing as with
    | nil =>
      cases has
      exact nofun
    | cons v vs ih =>
      rw [decodeElements] at has
      obtain ⟨a, ha, hrest⟩ := Except.bind_eq_ok.mp has
      obtain ⟨as', has', hcons⟩ := Except.bind_eq_ok.mp hrest
      cases hcons
      exact List.forall_mem_cons.mpr ⟨h _ _ ha, ih as' has'⟩
  | _ => exact absurd has wrongType_ne_ok

/-! ### What the fields of a record ensure -/

/-- What is put into a field meets the condition of its decoder. -/
theorem Ensures.setOnce {name : String} {read : Decoder α} {P : α → Prop} (h : Ensures read P)
    {f f' : Option α} {v : Json} (hset : Json.setOnce name read f v = .ok f') : ∀ a ∈ f', P a := by
  cases f with
  | some b => cases hset
  | none =>
    obtain ⟨a, ha, rfl⟩ := Except.map_eq_ok.mp hset
    rintro b ⟨⟩
    exact h _ _ ha

/-- A required field is full. -/
theorem require_eq_ok {name : String} {f : Option α} {a : α} :
    require name f = .ok a ↔ f = some a := by
  cases f with
  | none => exact ⟨nofun, nofun⟩
  | some b => exact ⟨fun h => congrArg some (Except.ok.inj h), fun h => by cases h; rfl⟩

/-- The element of a required field meets the condition of its decoder. -/
theorem Ensures.takeField {index : Nat} {wanted : String} {read : Decoder α} {P : α → Prop}
    (h : Ensures read P) {vs : List Json} {p : α × List Json}
    (htake : Json.takeField index wanted read vs = .ok p) : P p.1 := by
  cases vs with
  | nil => cases htake
  | cons v vs =>
    obtain ⟨a, ha, rfl⟩ := Except.map_eq_ok.mp htake
    exact h _ _ ha

/-- So does the element of a field that may be missing, if its default does. -/
theorem Ensures.takeDefault {default : α} {read : Decoder α} {P : α → Prop} (h : Ensures read P)
    (hdefault : P default) {vs : List Json} {p : α × List Json}
    (htake : Json.takeDefault default read vs = .ok p) : P p.1 := by
  cases vs with
  | nil =>
    cases htake
    exact hdefault
  | cons v vs =>
    obtain ⟨a, ha, rfl⟩ := Except.map_eq_ok.mp htake
    exact h _ _ ha

/-- **An invariant of the fields of an object** holds after all members if every member that is
put in keeps it. -/
theorem decodeMembers_induction {σ : Type} {put : σ → String → Json → Except ReadError σ}
    {I : σ → Prop} (hput : ∀ {s name v s'}, I s → put s name v = .ok s' → I s')
    {ms : List (Option String × Json)} {s s' : σ} (hs : I s)
    (h : decodeMembers put s ms = .ok s') : I s' := by
  induction ms generalizing s with
  | nil =>
    cases h
    exact hs
  | cons m ms ih =>
    obtain ⟨_ | name, v⟩ := m
    · cases h
    · obtain ⟨t, ht, hrest⟩ := Except.bind_eq_ok.mp h
      exact ih (hput hs ht) hrest

/-- **An object with a single field**: its value meets the condition of its decoder. -/
theorem Ensures.decodeMembers {name : String} {read : Decoder α} {P : α → Prop}
    (h : Ensures read P) {put : Option α → String → Json → Except ReadError (Option α)}
    (hput : ∀ f k v, put f k v = Json.setOnce name read f v ∨ put f k v = .ok f)
    {ms : List (Option String × Json)} {f : Option α}
    (hms : Json.decodeMembers put none ms = .ok f) : ∀ a ∈ f, P a := by
  refine decodeMembers_induction (I := fun f => ∀ a ∈ f, P a) ?_ (by simp) hms
  intro f k v f' hf hstep
  rcases hput f k v with hset | hskip
  · exact h.setOnce (hset ▸ hstep)
  · rw [hskip] at hstep
    cases hstep
    exact hf

end Json

end Binning
