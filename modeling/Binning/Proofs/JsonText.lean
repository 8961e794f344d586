import Binning.Proofs.JsonScalars

/-!
# Texts that are read back

A JSON value that is written is read back as it was, without blanks
(`Binning.Json.parse_compact`) and on lines (`Binning.Json.parse_pretty`). It may hold anything:
names that are repeated, and strings that name no text. Only its numerals must be such as JSON
allows (`Binning.Json.Grammatical`), since a value could have others.

The two ways of writing a value differ in their blanks only (`Binning.Json.Spacing`), and what is
read does not depend on these: one proof is about any blanks between the parts of a value.

Reading is bounded by the length of the text: a value of `n` characters is read with `2 * n`
nested calls (`Binning.Json.read_spacedChars`).
-/

namespace Binning

namespace Json

/-! ### Values -/

mutual

/-- **Every numeral of the value follows the grammar of JSON.** -/
def Grammatical : Json → Prop
  | .number n => n.Grammatical
  | .array elements => GrammaticalElements elements
  | .object members => GrammaticalMembers members
  | _ => True

/-- Every element is grammatical. -/
def GrammaticalElements : List Json → Prop
  | [] => True
  | v :: vs => Grammatical v ∧ GrammaticalElements vs

/-- Every member is grammatical. -/
def GrammaticalMembers : List (Option String × Json) → Prop
  | [] => True
  | (_, v) :: ms => Grammatical v ∧ GrammaticalMembers ms

end

/-! ### Blanks -/

theorem skipBlanks_cons {c : Char} (h : isBlank c = false) (cs : List Char) :
    skipBlanks (c :: cs) = c :: cs := by
  rw [skipBlanks, List.dropWhile_cons_of_neg (by simp [h])]

/-- **Nothing but blanks.** -/
def Blank (bs : List Char) : Prop := ∀ c ∈ bs, isBlank c = true

section

variable {bs : List Char} (hbs : Blank bs)

include hbs

/-- Blanks are skipped. -/
theorem skipBlanks_append (cs : List Char) : skipBlanks (bs ++ cs) = skipBlanks cs :=
  List.dropWhile_append_of_pos hbs

theorem readValue_blanks (fuel : Nat) (cs : List Char) :
    readValue fuel (bs ++ cs) = readValue fuel cs := by
  cases fuel with
  | zero => rfl
  | succ fuel => rw [readValue, readValue, skipBlanks_append hbs]

theorem readElements_blanks (fuel : Nat) (cs : List Char) :
    readElements fuel (bs ++ cs) = readElements fuel cs := by
  cases fuel with
  | zero => rfl
  | succ fuel => rw [readElements, readElements, readValue_blanks hbs]

theorem readMembers_blanks (fuel : Nat) (cs : List Char) :
    readMembers fuel (bs ++ cs) = readMembers fuel cs := by
  cases fuel with
  | zero => rfl
  | succ fuel => rw [readMembers, readMembers, skipBlanks_append hbs]

/-- Blanks may come before what follows a value. -/
theorem follows_blanks {rest : List Char} (h : Follows rest) : Follows (bs ++ rest) := by
  cases bs with
  | nil => exact h
  | cons c bs =>
    have hc : isBlank c = true := hbs c List.mem_cons_self
    have hcases : c = ' ' ∨ c = '\n' ∨ c = '\t' ∨ c = '\r' := by
      simpa [isBlank, or_assoc] using hc
    rcases hcases with rfl | rfl | rfl | rfl <;> exact follows_cons (by decide) _

end

/-! ### Values with blanks between their parts -/

/-- **The blanks of a text**: those before an element or member, or before a closing bracket, at
a depth, and those after a colon. -/
structure Spacing where
  line : Nat → List Char
  colon : List Char
  blank_line : ∀ depth, Blank (line depth)
  blank_colon : Blank colon

/-- No blanks. -/
def Spacing.none : Spacing := ⟨fun _ => [], [], fun _ => nofun, nofun⟩

/-- An element or member on a line. -/
def Spacing.lines : Spacing where
  line := lineBreak
  colon := [' ']
  blank_line depth c hc := by
    rcases List.mem_cons.mp hc with rfl | hc
    · rfl
    · rw [(List.mem_replicate.mp hc).2]
      rfl
  blank_colon := List.forall_mem_singleton.mpr rfl

section

variable (sp : Spacing)

mutual

/-- A value at a depth, with its blanks. -/
def spacedChars (depth : Nat) : Json → List Char
  | .null => ['n', 'u', 'l', 'l']
  | .bool b => boolChars b
  | .number n => n.chars
  | .string s => stringChars s
  | .array [] => ['[', ']']
  | .array (v :: vs) =>
    '[' :: (sp.line (depth + 1) ++ (spacedChars (depth + 1) v ++ spacedElements depth vs))
  | .object [] => ['{', '}']
  | .object ((k, v) :: ms) =>
    '{' :: (sp.line (depth + 1) ++ (stringChars k ++
      ':' :: (sp.colon ++ (spacedChars (depth + 1) v ++ spacedMembers depth ms))))

/-- The elements after the first one, up to the closing bracket at a depth. -/
def spacedElements (depth : Nat) : List Json → List Char
  | [] => sp.line depth ++ [']']
  | v :: vs =>
    ',' :: (sp.line (depth + 1) ++ (spacedChars (depth + 1) v ++ spacedElements depth vs))

/-- The members after the first one, up to the closing brace at a depth. -/
def spacedMembers (depth : Nat) : List (Option String × Json) → List Char
  | [] => sp.line depth ++ ['}']
  | (k, v) :: ms =>
    ',' :: (sp.line (depth + 1) ++ (stringChars k ++
      ':' :: (sp.colon ++ (spacedChars (depth + 1) v ++ spacedMembers depth ms))))

end

end

mutual

/-- A value without blanks. -/
theorem spacedChars_none (depth : Nat) : ∀ v, spacedChars .none depth v = v.compactChars
  | .null | .bool _ | .number _ | .string _ | .array [] | .object [] => by
    rw [spacedChars, compactChars]
  | .array (v :: vs) => by
    rw [spacedChars, compactChars, spacedChars_none, spacedElements_none]
    rfl
  | .object ((k, v) :: ms) => by
    rw [spacedChars, compactChars, spacedChars_none, spacedMembers_none]
    rfl

theorem spacedElements_none (depth : Nat) :
    ∀ vs, spacedElements .none depth vs = compactElements vs
  | [] => by
    rw [spacedElements, compactElements]
    rfl
  | v :: vs => by
    rw [spacedElements, compactElements, spacedChars_none, spacedElements_none]
    rfl

theorem spacedMembers_none (depth : Nat) :
    ∀ ms, spacedMembers .none depth ms = compactMembers ms
  | [] => by
    rw [spacedMembers, compactMembers]
    rfl
  | (k, v) :: ms => by
    rw [spacedMembers, compactMembers, spacedChars_none, spacedMembers_none]
    rfl

end

mutual

/-- A value on lines. -/
theorem spacedChars_lines (depth : Nat) : ∀ v, spacedChars .lines depth v = v.prettyChars depth
  | .null | .bool _ | .number _ | .string _ | .array [] | .object [] => by
    rw [spacedChars, prettyChars]
  | .array (v :: vs) => by
    rw [spacedChars, prettyChars, spacedChars_lines, spacedElements_lines, List.append_assoc]
    rfl
  | .object ((k, v) :: ms) => by
    rw [spacedChars, prettyChars, spacedChars_lines, spacedMembers_lines]
    simp only [List.append_assoc]
    rfl

theorem spacedElements_lines (depth : Nat) :
    ∀ vs, spacedElements .lines depth vs = prettyElements depth vs
  | [] => by
    rw [spacedElements, prettyElements]
    rfl
  | v :: vs => by
    rw [spacedElements, prettyElements, spacedChars_lines, spacedElements_lines,
      List.append_assoc]
    rfl

theorem spacedMembers_lines (depth : Nat) :
    ∀ ms, spacedMembers .lines depth ms = prettyMembers depth ms
  | [] => by
    rw [spacedMembers, prettyMembers]
    rfl
  | (k, v) :: ms => by
    rw [spacedMembers, prettyMembers, spacedChars_lines, spacedMembers_lines]
    simp only [List.append_assoc]
    rfl

end

section

variable (sp : Spacing)

/-- A digit is no blank and no bracket. -/
theorem digit_start : ∀ d : Digit, isBlank d.char = false ∧ d.char ≠ ']' := by decide

/-- **How a value starts**: not with a blank, and with no closing bracket. -/
theorem exists_spacedChars (depth : Nat) {v : Json} (hv : v.Grammatical) :
    ∃ c cs, v.spacedChars sp depth = c :: cs ∧ isBlank c = false ∧ c ≠ ']' := by
  rcases v with _ | b | ⟨negative, _ | ⟨d, whole⟩, fraction, exponent⟩ | s | (_ | ⟨v, vs⟩) |
    (_ | ⟨⟨k, v⟩, ms⟩)
  · exact ⟨'n', _, by rw [spacedChars], by decide⟩
  · cases b with
    | true => exact ⟨'t', _, by rw [spacedChars, boolChars, if_pos rfl], by decide⟩
    | false => exact ⟨'f', _, by rw [spacedChars]; rfl, by decide⟩
  · exact absurd hv.whole id
  · cases negative with
    | true => exact ⟨'-', _, by rw [spacedChars]; rfl, by decide⟩
    | false => exact ⟨d.char, _, by rw [spacedChars]; rfl, digit_start d⟩
  · obtain ⟨cs, heq, -⟩ := readString_chars s []
    exact ⟨'"', cs, by simpa [spacedChars] using heq, by decide⟩
  · exact ⟨'[', _, by rw [spacedChars], by decide⟩
  · exact ⟨'[', _, by rw [spacedChars], by decide⟩
  · exact ⟨'{', _, by rw [spacedChars], by decide⟩
  · exact ⟨'{', _, by rw [spacedChars], by decide⟩

/-- What follows an element. -/
theorem follows_spacedElements (depth : Nat) (vs : List Json) (rest : List Char) :
    Follows (spacedElements sp depth vs ++ rest) := by
  cases vs with
  | nil =>
    rw [spacedElements, List.append_assoc]
    exact follows_blanks (sp.blank_line depth) (follows_cons (by decide) rest)
  | cons v vs =>
    rw [spacedElements]
    exact follows_cons (by decide) _

/-- What follows a member. -/
theorem follows_spacedMembers (depth : Nat) (ms : List (Option String × Json))
    (rest : List Char) : Follows (spacedMembers sp depth ms ++ rest) := by
  cases ms with
  | nil =>
    rw [spacedMembers, List.append_assoc]
    exact follows_blanks (sp.blank_line depth) (follows_cons (by decide) rest)
  | cons m ms =>
    rw [spacedMembers]
    exact follows_cons (by decide) _

theorem length_spacedElements_pos (depth : Nat) (vs : List Json) :
    0 < (spacedElements sp depth vs).length := by
  cases vs <;> simp [spacedElements]

theorem length_spacedMembers_pos (depth : Nat) (ms : List (Option String × Json)) :
    0 < (spacedMembers sp depth ms).length := by
  cases ms <;> simp [spacedMembers]

/-- A numeral is read where a value is expected. -/
theorem readValue_numeral (fuel : Nat) {n : Numeral} (hn : n.Grammatical) {rest : List Char}
    (h : Follows rest) : readValue (fuel + 1) (n.chars ++ rest) = some (.number n, rest) := by
  have hread := readNumeral_chars hn h
  have hvalue : readValue (fuel + 1) (n.chars ++ rest) =
      (readNumeral (n.chars ++ rest)).map fun n => (.number n.1, n.2) := by
    obtain ⟨negative, whole, fraction, exponent⟩ := n
    cases whole with
    | nil => exact absurd hn.whole id
    | cons d whole =>
      cases negative with
      | true => rfl
      | false => fin_cases d <;> rfl
  rw [hvalue, hread]
  rfl

/-- Elements are read after the opening bracket, if the first one starts as a value does. -/
theorem readValue_array (fuel : Nat) {bs : List Char} (hbs : Blank bs) {c : Char}
    (hblank : isBlank c = false) (hc : c ≠ ']') (cs : List Char) :
    readValue (fuel + 1) ('[' :: (bs ++ c :: cs)) =
      (readElements fuel (c :: cs)).map fun vs => (.array vs.1, vs.2) := by
  rw [readValue, skipBlanks_cons rfl]
  simp only [skipBlanks_append hbs, skipBlanks_cons hblank]
  split
  · next rest heq => exact absurd (List.cons.inj heq).1 hc
  · rfl

/-- Members are read after the opening brace. -/
theorem readValue_object (fuel : Nat) {bs : List Char} (hbs : Blank bs) (cs : List Char) :
    readValue (fuel + 1) ('{' :: (bs ++ '"' :: cs)) =
      (readMembers fuel ('"' :: cs)).map fun ms => (.object ms.1, ms.2) := by
  have hquote : skipBlanks ('"' :: cs) = '"' :: cs := skipBlanks_cons rfl cs
  rw [readValue, skipBlanks_cons rfl]
  simp only [skipBlanks_append hbs, hquote]
  rfl

/-- After an element, a comma is followed by other elements. -/
theorem readElements_comma {fuel : Nat} {cs rest : List Char} {v : Json}
    (h : readValue fuel cs = some (v, ',' :: rest)) : readElements (fuel + 1) cs =
      (readElements fuel rest).map fun vs => (v :: vs.1, vs.2) := by
  rw [readElements, h]
  rfl

/-- After an element, the closing bracket is the end. -/
theorem readElements_close {fuel : Nat} {cs bs rest : List Char} {v : Json} (hbs : Blank bs)
    (h : readValue fuel cs = some (v, bs ++ ']' :: rest)) :
    readElements (fuel + 1) cs = some ([v], rest) := by
  have hclose : skipBlanks (']' :: rest) = ']' :: rest := skipBlanks_cons rfl rest
  rw [readElements, h]
  simp only [Option.bind_eq_bind, Option.bind_some, skipBlanks_append hbs, hclose]

/-- After a member, a comma is followed by other members. -/
theorem readMembers_comma {fuel : Nat} {bs cs rest : List Char} {k : Option String} {v : Json}
    (hbs : Blank bs) (h : readValue fuel cs = some (v, ',' :: rest)) :
    readMembers (fuel + 1) (stringChars k ++ ':' :: (bs ++ cs)) =
      (readMembers fuel rest).map fun ms => ((k, v) :: ms.1, ms.2) := by
  obtain ⟨cs', hkey, hread⟩ := readString_chars k (':' :: (bs ++ cs))
  have hquote : skipBlanks ('"' :: cs') = '"' :: cs' := skipBlanks_cons rfl cs'
  have hcolon : skipBlanks (':' :: (bs ++ cs)) = ':' :: (bs ++ cs) := skipBlanks_cons rfl _
  rw [hkey, readMembers]
  simp only [hquote, hread, Option.bind_eq_bind, Option.bind_some, hcolon,
    readValue_blanks hbs, h]
  rfl

/-- After a member, the closing brace is the end. -/
theorem readMembers_close {fuel : Nat} {bs bs' cs rest : List Char} {k : Option String} {v : Json}
    (hbs : Blank bs) (hbs' : Blank bs') (h : readValue fuel cs = some (v, bs' ++ '}' :: rest)) :
    readMembers (fuel + 1) (stringChars k ++ ':' :: (bs ++ cs)) = some ([(k, v)], rest) := by
  obtain ⟨cs', hkey, hread⟩ := readString_chars k (':' :: (bs ++ cs))
  have hquote : skipBlanks ('"' :: cs') = '"' :: cs' := skipBlanks_cons rfl cs'
  have hcolon : skipBlanks (':' :: (bs ++ cs)) = ':' :: (bs ++ cs) := skipBlanks_cons rfl _
  have hclose : skipBlanks ('}' :: rest) = '}' :: rest := skipBlanks_cons rfl rest
  rw [hkey, readMembers]
  simp only [hquote, hread, Option.bind_eq_bind, Option.bind_some, hcolon,
    readValue_blanks hbs, h, skipBlanks_append hbs', hclose]

/-! ### Within a bound

A value of `n` characters needs at most `2 * n` nested calls. -/

/-- Values are read back within this bound. -/
def ReadsValues (fuel : Nat) : Prop :=
  ∀ (depth : Nat) (v : Json) (rest : List Char), v.Grammatical → Follows rest →
    2 * (v.spacedChars sp depth).length ≤ fuel →
    readValue fuel (v.spacedChars sp depth ++ rest) = some (v, rest)

/-- Elements are read back within this bound. -/
def ReadsElements (fuel : Nat) : Prop :=
  ∀ (depth : Nat) (v : Json) (vs : List Json) (rest : List Char), v.Grammatical →
    GrammaticalElements vs →
    2 * ((v.spacedChars sp (depth + 1)).length + (spacedElements sp depth vs).length) ≤ fuel →
    readElements fuel (v.spacedChars sp (depth + 1) ++ (spacedElements sp depth vs ++ rest)) =
      some (v :: vs, rest)

/-- Members are read back within this bound. -/
def ReadsMembers (fuel : Nat) : Prop :=
  ∀ (depth : Nat) (k : Option String) (v : Json) (ms : List (Option String × Json))
    (rest : List Char), v.Grammatical → GrammaticalMembers ms →
    2 * ((v.spacedChars sp (depth + 1)).length + (spacedMembers sp depth ms).length) ≤ fuel →
    readMembers fuel (stringChars k ++ ':' :: (sp.colon ++
      (v.spacedChars sp (depth + 1) ++ (spacedMembers sp depth ms ++ rest)))) =
        some ((k, v) :: ms, rest)

variable {sp}

/-- No value fits a bound of zero. -/
theorem length_spacedChars_pos (depth : Nat) {v : Json} (hv : v.Grammatical) :
    0 < (v.spacedChars sp depth).length := by
  obtain ⟨c, cs, heq, -⟩ := exists_spacedChars sp depth hv
  rw [heq]
  exact Nat.succ_pos cs.length

/-- A sequence of elements in its brackets. -/
theorem ReadsElements.array {fuel : Nat} (h : ReadsElements sp fuel) (depth : Nat) {v : Json}
    {vs : List Json} (hv : v.Grammatical) (hvs : GrammaticalElements vs) (rest : List Char)
    (hfuel : 2 * ((array (v :: vs)).spacedChars sp depth).length ≤ fuel + 1) :
    readValue (fuel + 1) ((array (v :: vs)).spacedChars sp depth ++ rest) =
      some (array (v :: vs), rest) := by
  obtain ⟨c, cs, hstart, hblank, hc⟩ := exists_spacedChars sp (depth + 1) hv
  have hread := h depth v vs rest hv hvs (by
    rw [spacedChars, List.length_cons, List.length_append, List.length_append] at hfuel
    omega)
  rw [spacedChars, List.cons_append, List.append_assoc, List.append_assoc]
  rw [hstart, List.cons_append] at hread ⊢
  rw [readValue_array fuel (sp.blank_line (depth + 1)) hblank hc, hread]
  rfl

/-- A sequence of members in its braces. -/
theorem ReadsMembers.object {fuel : Nat} (h : ReadsMembers sp fuel) (depth : Nat)
    (k : Option String) {v : Json} {ms : List (Option String × Json)} (hv : v.Grammatical)
    (hms : GrammaticalMembers ms) (rest : List Char)
    (hfuel : 2 * ((object ((k, v) :: ms)).spacedChars sp depth).length ≤ fuel + 1) :
    readValue (fuel + 1) ((object ((k, v) :: ms)).spacedChars sp depth ++ rest) =
      some (object ((k, v) :: ms), rest) := by
  have hread := h depth k v ms rest hv hms (by
    rw [spacedChars] at hfuel
    simp only [List.length_cons, List.length_append] at hfuel
    omega)
  rw [spacedChars]
  simp only [List.cons_append, List.append_assoc]
  obtain ⟨cs, hkey, -⟩ := readString_chars k (':' :: (sp.colon ++
    (v.spacedChars sp (depth + 1) ++ (spacedMembers sp depth ms ++ rest))))
  rw [hkey] at hread ⊢
  rw [readValue_object fuel (sp.blank_line (depth + 1)), hread]
  rfl

/-- **Values are read back**, if what is nested in them is. -/
theorem readsValues_succ {fuel : Nat} (helements : ReadsElements sp fuel)
    (hmembers : ReadsMembers sp fuel) : ReadsValues sp (fuel + 1) := by
  rintro depth v rest hv hrest hfuel
  rcases v with _ | b | n | s | (_ | ⟨v, vs⟩) | (_ | ⟨⟨k, v⟩, ms⟩)
  · rw [spacedChars]
    rfl
  · rw [spacedChars]
    cases b with
    | true => rfl
    | false => rfl
  · rw [spacedChars]
    exact readValue_numeral fuel hv hrest
  · obtain ⟨cs, heq, hread⟩ := readString_chars s rest
    rw [spacedChars, heq]
    change (readString cs).map _ = _
    rw [hread]
    rfl
  · rw [spacedChars]
    rfl
  · exact helements.array depth hv.1 hv.2 rest hfuel
  · rw [spacedChars]
    rfl
  · exact hmembers.object depth k hv.1 hv.2 rest hfuel

/-- **Elements are read back**, if the first one and the others are. -/
theorem readsElements_succ {fuel : Nat} (hvalues : ReadsValues sp fuel)
    (helements : ReadsElements sp fuel) : ReadsElements sp (fuel + 1) := by
  rintro depth v vs rest hv hvs hfuel
  have hclose := length_spacedElements_pos sp depth vs
  have hvalue := hvalues (depth + 1) v _ hv (follows_spacedElements sp depth vs rest) (by omega)
  cases vs with
  | nil =>
    rw [spacedElements, List.append_assoc] at hvalue ⊢
    exact readElements_close (sp.blank_line depth) hvalue
  | cons v' vs =>
    rw [spacedElements] at hfuel hvalue ⊢
    simp only [List.length_cons, List.length_append] at hfuel
    simp only [List.cons_append, List.append_assoc] at hvalue ⊢
    have hothers := helements depth v' vs rest hvs.1 hvs.2 (by omega)
    rw [readElements_comma hvalue, readElements_blanks (sp.blank_line (depth + 1)), hothers]
    rfl

/-- **Members are read back**, if the first value and the other members are. -/
theorem readsMembers_succ {fuel : Nat} (hvalues : ReadsValues sp fuel)
    (hmembers : ReadsMembers sp fuel) : ReadsMembers sp (fuel + 1) := by
  rintro depth k v ms rest hv hms hfuel
  have hclose := length_spacedMembers_pos sp depth ms
  have hvalue := hvalues (depth + 1) v _ hv (follows_spacedMembers sp depth ms rest) (by omega)
  cases ms with
  | nil =>
    rw [spacedMembers, List.append_assoc] at hvalue ⊢
    exact readMembers_close sp.blank_colon (sp.blank_line depth) hvalue
  | cons m ms =>
    obtain ⟨k', v'⟩ := m
    rw [spacedMembers] at hfuel hvalue ⊢
    simp only [List.length_cons, List.length_append] at hfuel
    simp only [List.cons_append, List.append_assoc] at hvalue ⊢
    have hothers := hmembers depth k' v' ms rest hms.1 hms.2 (by omega)
    rw [readMembers_comma sp.blank_colon hvalue, readMembers_blanks (sp.blank_line (depth + 1)),
      hothers]
    rfl

variable (sp)

/-- **Values, elements and members are read back** within any bound that their lengths allow.
The induction is on the bound, which every nested call uses up. -/
theorem read_spacedChars (fuel : Nat) :
    ReadsValues sp fuel ∧ ReadsElements sp fuel ∧ ReadsMembers sp fuel := by
  induction fuel with
  | zero =>
    refine ⟨?_, ?_, ?_⟩
    · rintro depth v rest hv - hfuel
      have hpos : 0 < (v.spacedChars sp depth).length := length_spacedChars_pos depth hv
      omega
    · rintro depth v vs rest hv - hfuel
      have hpos : 0 < (v.spacedChars sp (depth + 1)).length := length_spacedChars_pos _ hv
      omega
    · rintro depth k v ms rest hv - hfuel
      have hpos : 0 < (v.spacedChars sp (depth + 1)).length := length_spacedChars_pos _ hv
      omega
  | succ fuel ih =>
    obtain ⟨hvalues, helements, hmembers⟩ := ih
    exact ⟨readsValues_succ helements hmembers, readsElements_succ hvalues helements,
      readsMembers_succ hvalues hmembers⟩

/-- **A value that is written is read back**, whatever blanks are in it and after it. -/
theorem parseChars_spacedChars {v : Json} (hv : v.Grammatical) {bs : List Char} (hbs : Blank bs) :
    parseChars (v.spacedChars sp 0 ++ bs) = some v := by
  have hfollows : Follows bs := by
    rw [← List.append_nil bs]
    exact follows_blanks hbs trivial
  have hskip : skipBlanks bs = [] := by
    have h := skipBlanks_append hbs []
    rwa [List.append_nil] at h
  have hread := (read_spacedChars sp (2 * (v.spacedChars sp 0 ++ bs).length + 2)).1 0 v bs
    hv hfollows (by
      rw [List.length_append]
      omega)
  rw [parseChars, hread]
  dsimp only
  rw [hskip]
  rfl

end

/-- **A value that is written without blanks is read back.** -/
theorem parse_compact {v : Json} (hv : v.Grammatical) : parse v.compact = some v := by
  have hread : parseChars (v.spacedChars .none 0 ++ []) = some v :=
    parseChars_spacedChars .none hv nofun
  rwa [spacedChars_none, List.append_nil, ← String.toList_ofList (l := v.compactChars)] at hread

/-- **A value that is written on lines is read back**, with the line break after it. -/
theorem parse_pretty {v : Json} (hv : v.Grammatical) : parse (v.pretty ++ "\n") = some v := by
  have hread : parseChars (v.spacedChars .lines 0 ++ ['\n']) = some v :=
    parseChars_spacedChars .lines hv (List.forall_mem_singleton.mpr rfl)
  have hchars : (v.pretty ++ "\n").toList = v.prettyChars 0 ++ ['\n'] := by
    rw [String.toList_append, pretty, String.toList_ofList]
    rfl
  rwa [spacedChars_lines, ← hchars] at hread

end Json

end Binning
