import Binning.Json.Printer
import Binning.Json.Reader
import Binning.Proofs.Numerals
import Mathlib.Data.Fintype.Basic
import Mathlib.Tactic.FinCases

/-!
# Numerals and strings that are read back

Reading goes from left to right and each part takes as much as it can, so it matters what comes
after a part. A numeral ends where no digit, point or exponent follows, and what follows a value
in a text is a comma, a closing bracket or a blank (`Binning.Json.Follows`): there a numeral is
read back (`Binning.Json.readNumeral_chars`).

A string has an end of its own and needs no such condition (`Binning.Json.readString_chars`). It
may hold any characters, and it may also name no text.
-/

namespace Binning

namespace Json

open Digit

/-! ### Numerals -/

/-- No digit comes next. -/
def NoDigit : List Char → Prop
  | [] => True
  | c :: _ => ofChar? c = none

/-- **What may follow a value**: nothing, a comma, a closing bracket or a blank. -/
def Follows : List Char → Prop
  | [] => True
  | c :: _ => c ∈ [',', ']', '}', ' ', '\n', '\t', '\r']

theorem follows_cons {c : Char} (hc : c ∈ [',', ']', '}', ' ', '\n', '\t', '\r'])
    (rest : List Char) : Follows (c :: rest) := hc

theorem Follows.noDigit {rest : List Char} (h : Follows rest) : NoDigit rest := by
  cases rest with
  | nil => trivial
  | cons c rest =>
    have hc : c ∈ [',', ']', '}', ' ', '\n', '\t', '\r'] := h
    fin_cases hc <;> exact rfl

/-- What follows a value is no part of a numeral. -/
theorem Follows.readExponent {rest : List Char} (h : Follows rest) :
    readExponent rest = some (none, rest) := by
  cases rest with
  | nil => rfl
  | cons c rest =>
    have hc : c ∈ [',', ']', '}', ' ', '\n', '\t', '\r'] := h
    fin_cases hc <;> rfl

theorem Follows.readFraction {rest : List Char} (h : Follows rest) :
    readFraction rest = some ([], rest) := by
  cases rest with
  | nil => rfl
  | cons c rest =>
    have hc : c ∈ [',', ']', '}', ' ', '\n', '\t', '\r'] := h
    fin_cases hc <;> rfl

/-- Digits are read up to the first character that is none. -/
theorem readDigits_chars (ds : List Digit) {rest : List Char} (h : NoDigit rest) :
    readDigits (ds.map char ++ rest) = (ds, rest) := by
  induction ds with
  | nil =>
    cases rest with
    | nil => rfl
    | cons c rest =>
      have hc : ofChar? c = none := h
      rw [List.map_nil, List.nil_append, readDigits, hc]
  | cons d ds ih => rw [List.map_cons, List.cons_append, readDigits, ofChar?_char, ih]

theorem readWhole_chars {ds : List Digit} (hds : Whole ds) {rest : List Char} (h : NoDigit rest) :
    readWhole (ds.map char ++ rest) = some (ds, rest) := by
  rw [readWhole, readDigits_chars ds h]
  cases ds with
  | nil => exact absurd hds id
  | cons d ds =>
    cases ds with
    | nil => rfl
    | cons d' ds =>
      have hd : d.val ≠ 0 := hds.resolve_left (List.cons_ne_nil d' ds)
      exact if_neg hd

/-- The characters of a fraction. -/
def fractionChars (ds : List Digit) : List Char := if ds.isEmpty then [] else '.' :: ds.map char

/-- The characters of an exponent. -/
def exponentChars : Option Exponent → List Char
  | none => []
  | some e => e.chars

theorem chars_eq (n : Numeral) : n.chars = (if n.negative then ['-'] else []) ++
    (n.whole.map char ++ (fractionChars n.fraction ++ exponentChars n.exponent)) := by
  obtain ⟨negative, whole, fraction, exponent⟩ := n
  cases exponent with
  | none => simp only [Numeral.chars, fractionChars, exponentChars, List.append_assoc]
  | some e => simp only [Numeral.chars, fractionChars, exponentChars, List.append_assoc]

/-- No digit is a sign. -/
theorem readSign_char (d : Digit) (cs : List Char) :
    readSign (d.char :: cs) = (none, d.char :: cs) := by
  fin_cases d <;> rfl

/-- No digit is a minus sign. -/
theorem readMinus_char (d : Digit) (cs : List Char) :
    readMinus (d.char :: cs) = (false, d.char :: cs) := by
  fin_cases d <;> rfl

theorem readExponent_chars {e : Option Exponent} (he : ∀ x, e = some x → x.digits ≠ [])
    {rest : List Char} (h : Follows rest) :
    readExponent (exponentChars e ++ rest) = some (e, rest) := by
  cases e with
  | none => exact h.readExponent
  | some e =>
    obtain ⟨sign, ds⟩ := e
    obtain ⟨d, ds, rfl⟩ := List.exists_cons_of_ne_nil (he _ rfl)
    have hdigits : readDigits ((d :: ds).map char ++ rest) = (d :: ds, rest) :=
      readDigits_chars (d :: ds) h.noDigit
    have hsign : ∀ cs, readSign cs = (sign, (d :: ds).map char ++ rest) →
        readExponent ('e' :: cs) = some (some ⟨sign, d :: ds⟩, rest) := by
      intro cs hcs
      rw [readExponent, if_pos (Or.inl rfl), hcs]
      dsimp only
      rw [hdigits]
    rcases sign with _ | _ | _
    · exact hsign _ (readSign_char d (ds.map char ++ rest))
    · exact hsign _ rfl
    · exact hsign _ rfl

theorem readFraction_chars (ds : List Digit) (e : Option Exponent) {rest : List Char}
    (h : Follows rest) : readFraction (fractionChars ds ++ (exponentChars e ++ rest)) =
      some (ds, exponentChars e ++ rest) := by
  cases ds with
  | nil =>
    -- Without a fraction there is no point.
    cases e with
    | none => exact h.readFraction
    | some e => rfl
  | cons d ds =>
    have hnext : NoDigit (exponentChars e ++ rest) := by
      cases e with
      | none => exact h.noDigit
      | some e => exact rfl
    change readFraction ('.' :: ((d :: ds).map char ++ (exponentChars e ++ rest))) = _
    rw [readFraction, readDigits_chars (d :: ds) hnext]

/-- **A numeral is read back**, whatever value comes after it. -/
theorem readNumeral_chars {n : Numeral} (hn : n.Grammatical) {rest : List Char} (h : Follows rest) :
    readNumeral (n.chars ++ rest) = some (n, rest) := by
  obtain ⟨negative, whole, fraction, exponent⟩ := n
  have hnext : NoDigit (fractionChars fraction ++ (exponentChars exponent ++ rest)) := by
    cases fraction with
    | nil =>
      cases exponent with
      | none => exact h.noDigit
      | some e => exact rfl
    | cons d ds => exact rfl
  have hwhole := readWhole_chars hn.whole hnext
  have hminus : readMinus ((⟨negative, whole, fraction, exponent⟩ : Numeral).chars ++ rest) =
      (negative,
        whole.map char ++ (fractionChars fraction ++ (exponentChars exponent ++ rest))) := by
    rw [chars_eq, List.append_assoc, List.append_assoc, List.append_assoc]
    cases negative with
    | true => rfl
    | false =>
      cases whole with
      | nil => exact absurd hn.whole id
      | cons d ds => exact readMinus_char d _
  rw [readNumeral, hminus]
  simp only [hwhole, readFraction_chars fraction exponent h, readExponent_chars hn.exponent h,
    Option.bind_eq_bind, Option.bind_some, Option.pure_def]

/-! ### Strings -/

/-- How a character of a string is read: a control character without a letter of its own is
written by its number. -/
def piece (c : Char) : Piece :=
  if c.toNat < 0x20 ∧ c ∉ ['\x08', '\x0c', '\n', '\r', '\t'] then .unit c.toNat else .char c

/-- A letter after a backslash is read as the character it stands for. -/
theorem readPieces_letter {e c : Char} (he : e ≠ 'u') (h : escaped? e = some c) (cs : List Char) :
    readPieces ('\\' :: e :: cs) = (readPieces cs).map fun p => (.char c :: p.1, p.2) := by
  cases hcs : readPieces cs <;> simp [readPieces, he, h, hcs]

/-- A number after a backslash is read as a unit. -/
theorem readPieces_unit {a b c d : Char} {n : Nat} (h : unitOf? a b c d = some n) (cs : List Char) :
    readPieces ('\\' :: 'u' :: a :: b :: c :: d :: cs) =
      (readPieces cs).map fun p => (.unit n :: p.1, p.2) := by
  cases hcs : readPieces cs <;> simp [readPieces, h, hcs]

/-- Any other character is read as itself. -/
theorem readPieces_char {c : Char} (hquote : c ≠ '"') (hslash : c ≠ '\\') (hc : ¬c.toNat < 0x20)
    (cs : List Char) :
    readPieces (c :: cs) = (readPieces cs).map fun p => (.char c :: p.1, p.2) := by
  rw [readPieces, if_neg hc]
  · cases readPieces cs <;> rfl
  · exact hquote
  · exact hslash

/-- The number of a control character is written in two digits. -/
theorem unitOf?_hexChar : ∀ n < 0x20,
    unitOf? '0' '0' (hexChar (n / 16)) (hexChar (n % 16)) = some n := by decide

/-- **A character of a string is read back.** -/
theorem readPieces_escape (c : Char) (cs : List Char) :
    readPieces (escape c ++ cs) = (readPieces cs).map fun p => (piece c :: p.1, p.2) := by
  unfold escape
  split
  · exact readPieces_letter (by decide) rfl cs
  · exact readPieces_letter (by decide) rfl cs
  · exact readPieces_letter (by decide) rfl cs
  · exact readPieces_letter (by decide) rfl cs
  · exact readPieces_letter (by decide) rfl cs
  · exact readPieces_letter (by decide) rfl cs
  · exact readPieces_letter (by decide) rfl cs
  · next hquote hslash h8 hc hn hr ht =>
    split
    · next hcontrol =>
      have hpiece : piece c = .unit c.toNat := if_pos ⟨hcontrol, by simp_all⟩
      rw [hpiece]
      exact readPieces_unit (unitOf?_hexChar c.toNat hcontrol) cs
    · next hplain =>
      have hpiece : piece c = .char c := if_neg fun h => hplain h.1
      rw [hpiece]
      exact readPieces_char hquote hslash hplain cs

/-- The characters of a string are read back up to the closing quote. -/
theorem readPieces_chars (s rest : List Char) :
    readPieces (s.flatMap escape ++ '"' :: rest) = some (s.map piece, rest) := by
  induction s with
  | nil => rfl
  | cons c s ih =>
    rw [List.flatMap_cons, List.append_assoc, readPieces_escape, ih]
    rfl

/-- **The characters of a string make up its text.** -/
theorem textOfPieces_map (s : List Char) : textOfPieces (s.map piece) = some s := by
  induction s with
  | nil => rfl
  | cons c s ih =>
    rw [List.map_cons, piece]
    split
    · next hc =>
      unfold textOfPieces
      rw [if_neg (by omega), if_neg (by omega), ih, Char.ofNat_toNat]
      rfl
    · rw [textOfPieces, ih]
      rfl

/-- **A string is read back**, also one that names no text. -/
theorem readString_chars (s : Option String) : ∀ rest, ∃ cs, stringChars s ++ rest = '"' :: cs ∧
    readString cs = some (s, rest) := by
  intro rest
  cases s with
  | none => exact ⟨_, rfl, rfl⟩
  | some s =>
    refine ⟨s.toList.flatMap escape ++ '"' :: rest, by simp [stringChars], ?_⟩
    rw [readString, readPieces_chars]
    simp [textOfPieces_map]

end Json

end Binning
