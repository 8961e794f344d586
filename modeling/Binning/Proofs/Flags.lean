import Binning.DescribeOptions
import Mathlib.Data.List.Forall2

/-!
# The language of flag strings

The options of a description are asked for by a string. What it asks for can be said without
following the reader from one character to the next:

* a *word* is a run of characters that are neither commas nor white space, is not empty, and
  goes on in neither direction (`Binning.DescribeOptions.IsWord`);
* a word *spells* a name if it differs from it at most in the case of ASCII letters
  (`Binning.DescribeOptions.Spells`), and a word that spells the name of a flag is a flag
  (`Binning.DescribeOptions.IsFlag`);
* the string is understood exactly if all its words are flags, and then it asks for the flags
  that occur. If not, the first word that is no flag is to blame.

`Binning.DescribeOptions.ofFlags_language` says that the reader does this. It rests on two facts:
the reader finds the words at their places, in order, each with what stands before and after it
(`Binning.DescribeOptions.words_eq_append_cons_iff`), and folding the case of a word and comparing
it with a name is the same as comparing letter by letter
(`Binning.DescribeOptions.map_toLower_eq_iff`).
-/

namespace Binning

/-! ### White space -/

namespace Text

/-- The white characters: the spaces, the separators of lines and of paragraphs, and the controls
that move on to another column or line. -/
def whites : List Char := [
  ' ', '\u00a0', '\u1680', '\u2000', '\u2001', '\u2002', '\u2003', '\u2004', '\u2005', '\u2006',
  '\u2007', '\u2008', '\u2009', '\u200a', '\u202f', '\u205f', '\u3000',
  '\u2028', '\u2029',
  '\t', '\n', '\x0b', '\x0c', '\r', '\u0085']

/-- The table of blank characters has the white characters and no other. -/
theorem isBlank_iff {c : Char} : isBlank c = true ↔ c ∈ whites := by
  simp only [isBlank, blanks, List.any_cons, List.any_nil, Bool.or_eq_true, decide_eq_true_eq,
    Bool.or_false, whites, List.mem_cons, List.not_mem_nil, or_false, ← Char.toNat_inj]
  simp only [Char.reduceToNat]
  omega

end Text

namespace DescribeOptions

/-! ### Letters and words -/

/-- **Two characters are alike**: they are the same, or the one is an ASCII capital and the other
its small letter. -/
def SameLetter (a b : Char) : Prop :=
  a = b ∨ ∃ k < 26, (a.toNat = 0x41 + k ∧ b.toNat = 0x61 + k) ∨
    (a.toNat = 0x61 + k ∧ b.toNat = 0x41 + k)

/-- **A word spells a name**: letter by letter, but for the case of ASCII letters. -/
def Spells (word : List Char) (name : String) : Prop := List.Forall₂ SameLetter word name.toList

theorem isUpper_iff {a : Char} : a.isUpper = true ↔ 0x41 ≤ a.toNat ∧ a.toNat ≤ 0x5A :=
  decide_eq_true_iff

/-- Only the ASCII capitals have another small letter, thirty-two further on. -/
theorem toNat_toLower (a : Char) :
    a.toLower.toNat = if a.isUpper then a.toNat + 32 else a.toNat := by
  split
  · next h =>
    have hle : a.val.toNat ≤ 0x5A := (isUpper_iff.mp h).2
    have hlower : a.toLower.toNat = (a.val.toNat + 32) % 2 ^ 32 :=
      congrArg Char.toNat (dif_pos (decide_eq_true_iff.mp h))
    rw [hlower]
    exact Nat.mod_eq_of_lt (by omega)
  · next h => exact congrArg Char.toNat (dif_neg (mt decide_eq_true_iff.mpr h))

/-- A character becomes a given one that is no capital exactly if they are alike. -/
theorem toLower_eq_iff {a l : Char} (hl : l.isUpper = false) : a.toLower = l ↔ SameLetter a l := by
  have hsmall : ¬(0x41 ≤ l.toNat ∧ l.toNat ≤ 0x5A) := by simp [← isUpper_iff, hl]
  rw [SameLetter, ← Char.toNat_inj, ← Char.toNat_inj, toNat_toLower]
  simp only [isUpper_iff]
  constructor
  · intro h
    split at h
    · exact Or.inr ⟨a.toNat - 0x41, by omega, Or.inl (by omega)⟩
    · exact Or.inl h
  · rintro (h | ⟨k, hk, h | h⟩)
    · rw [if_neg (by omega), h]
    · rw [if_pos (by omega)]
      omega
    · omega

/-- Folding the case of a word and comparing it is comparing it letter by letter. -/
theorem map_toLower_eq_iff {word name : List Char} (hname : ∀ c ∈ name, c.isUpper = false) :
    word.map Char.toLower = name ↔ List.Forall₂ SameLetter word name := by
  induction name generalizing word with
  | nil => simp
  | cons l name ih =>
    have hrest := fun c hc => hname c (List.mem_cons_of_mem l hc)
    cases word with
    | nil => simp
    | cons a word =>
      rw [List.map_cons, List.cons.injEq, toLower_eq_iff (hname l List.mem_cons_self), ih hrest,
        List.forall₂_cons]

/-! ### The words of a text -/

/-- **A separator** is a comma or white space. -/
def Separator (c : Char) : Prop := c = ',' ∨ c ∈ Text.whites

theorem separates_iff {c : Char} : separates c = true ↔ Separator c := by
  rw [separates, Bool.or_eq_true, Text.isBlank_iff, beq_iff_eq, Separator]

/-- **A word stands between** two parts of a text: it is a run of characters that do not
separate, it is not empty, and on both sides there is a separator or the end of the text. -/
structure IsWord (before word after : List Char) : Prop where
  ne_nil : word ≠ []
  unbroken : ∀ c ∈ word, ¬Separator c
  begins : ∀ c ∈ before.getLast?, Separator c
  ends : ∀ c ∈ after.head?, Separator c

/-- **The text has a word**, at one place or at several. -/
def HasWord (s word : List Char) : Prop :=
  ∃ before after, s = before ++ word ++ after ∧ IsWord before word after

/-- Characters that do not separate go on with the word. -/
theorem wordsFrom_append {run : List Char} (hrun : ∀ c ∈ run, ¬Separator c)
    (word rest : List Char) : wordsFrom word (run ++ rest) = wordsFrom (run.reverse ++ word) rest := by
  induction run generalizing word with
  | nil => rfl
  | cons c run ih =>
    have hc : separates c = false := by
      simpa [← separates_iff] using hrun c List.mem_cons_self
    rw [List.cons_append, wordsFrom, hc, if_neg Bool.false_ne_true,
      ih fun d hd => hrun d (List.mem_cons_of_mem c hd)]
    simp

/-- **A separator ends what stands before it.** -/
theorem wordsFrom_append_separator {c : Char} (hc : Separator c) (word before after : List Char) :
    wordsFrom word (before ++ c :: after) = wordsFrom word before ++ words after := by
  have hsep := separates_iff.mpr hc
  induction before generalizing word with
  | nil => cases word <;> simp [wordsFrom, words, hsep]
  | cons d before ih =>
    rw [List.cons_append, wordsFrom, wordsFrom]
    split
    · split <;> simp [ih]
    · rw [ih]

/-- What ends with a separator, or is empty, is read by itself. -/
theorem words_append_of_begins {before : List Char} (h : ∀ c ∈ before.getLast?, Separator c)
    (rest : List Char) : words (before ++ rest) = words before ++ words rest := by
  rcases List.eq_nil_or_concat before with rfl | ⟨front, c, rfl⟩
  · rfl
  · have hc : Separator c := h c (by simp)
    simp only [List.concat_eq_append, List.append_assoc, List.singleton_append, words]
    rw [wordsFrom_append_separator hc, wordsFrom_append_separator hc]
    simp [words, wordsFrom]

/-- What begins with a separator, or is empty, is read by itself. -/
theorem words_append_of_ends {after : List Char} (h : ∀ c ∈ after.head?, Separator c)
    (front : List Char) : words (front ++ after) = words front ++ words after := by
  cases after with
  | nil => simp [words, wordsFrom]
  | cons c after =>
    have hc : Separator c := h c (by simp)
    have hskip : words (c :: after) = words after := wordsFrom_append_separator hc [] [] after
    rw [hskip]
    exact wordsFrom_append_separator hc [] front after

/-- A run of characters that do not separate is a single word. -/
theorem words_run {run : List Char} (hne : run ≠ []) (hrun : ∀ c ∈ run, ¬Separator c) :
    words run = [run] := by
  have h := wordsFrom_append hrun [] []
  rw [List.append_nil, List.append_nil] at h
  rw [words, h, wordsFrom, if_neg (by simpa using hne), List.reverse_reverse]

/-- **A word is read at its place**, after the words that stand before it. -/
theorem IsWord.words_eq {before word after : List Char} (h : IsWord before word after) :
    words (before ++ word ++ after) = words before ++ word :: words after := by
  rw [words_append_of_ends h.ends, words_append_of_begins h.begins,
    words_run h.ne_nil h.unbroken, List.append_assoc, List.singleton_append]

/-- A word goes on being one if the text before it goes on beyond a separator. -/
theorem IsWord.behind {before word after : List Char} (h : IsWord before word after)
    (front : List Char) {c : Char} (hc : Separator c) : IsWord (front ++ c :: before) word after where
  ne_nil := h.ne_nil
  unbroken := h.unbroken
  begins d hd := by
    rw [List.getLast?_append, List.getLast?_cons, Option.some_or] at hd
    cases hlast : before.getLast? with
    | none =>
      rw [hlast] at hd
      obtain rfl : c = d := by simpa using hd
      exact hc
    | some e =>
      rw [hlast] at hd
      exact h.begins d (hlast.trans hd)
  ends := h.ends

/-- **What is read stands somewhere.** The beginning of the first word may have been read before;
it does not separate. -/
theorem exists_isWord {begun rest word : List Char} {front back : List (List Char)}
    (hbegun : ∀ c ∈ begun, ¬Separator c) (h : wordsFrom begun rest = front ++ word :: back) :
    ∃ before after, begun.reverse ++ rest = before ++ word ++ after ∧ IsWord before word after ∧
      words before = front ∧ words after = back := by
  -- The induction follows the reader, which keeps the beginning of a word free of separators.
  fun_induction wordsFrom begun rest generalizing front with
  | case1 => simp at h
  | case2 begun hne =>
    obtain ⟨rfl, rfl, rfl⟩ : front = [] ∧ begun.reverse = word ∧ back = [] := by
      cases front with
      | nil => simpa using h
      | cons => simp at h
    refine ⟨[], [], by simp, ⟨by simpa using hne, by simpa using hbegun, by simp, by simp⟩, rfl, rfl⟩
  | case3 begun c rest hc hempty ih =>
    obtain rfl := List.isEmpty_iff.mp hempty
    obtain ⟨before, after, hrest, hword, rfl, rfl⟩ := ih (by simp) h
    have hsep := separates_iff.mp hc
    exact ⟨c :: before, after, by simpa using hrest, hword.behind [] hsep,
      wordsFrom_append_separator hsep [] [] before, rfl⟩
  | case4 begun c rest hc hne ih =>
    have hsep := separates_iff.mp hc
    have hrun : ∀ d ∈ begun.reverse, ¬Separator d := by simpa using hbegun
    have hne' : begun.reverse ≠ [] := by simpa using hne
    -- The separator ends the word that was begun, which is the one in question or stands before it.
    rcases List.cons_eq_append_iff.mp h with ⟨rfl, hfirst⟩ | ⟨front, rfl, hlater⟩
    · obtain ⟨rfl, rfl⟩ := List.cons.inj hfirst
      exact ⟨[], c :: rest, by simp, ⟨hne', hrun, by simp, by simpa using hsep⟩, rfl,
        wordsFrom_append_separator hsep [] [] rest⟩
    · obtain ⟨before, after, hrest, hword, rfl, rfl⟩ := ih (by simp) hlater
      have hread : words (begun.reverse ++ c :: before) = begun.reverse :: words before := by
        rw [words, wordsFrom_append_separator hsep, ← words, words_run hne' hrun,
          List.singleton_append]
      exact ⟨begun.reverse ++ c :: before, after, by simpa using hrest, hword.behind _ hsep, hread,
        rfl⟩
  | case5 begun c rest hc ih =>
    have hc' : ¬Separator c := fun hsep => hc (separates_iff.mpr hsep)
    obtain ⟨before, after, hrest, hword⟩ := ih (by simpa using ⟨hc', hbegun⟩) h
    exact ⟨before, after, by simpa using hrest, hword⟩

/-- **The words that are read** are the words of the text, in order: a word is read between
others exactly if it stands between texts with those words. -/
theorem words_eq_append_cons_iff {s word : List Char} {front back : List (List Char)} :
    words s = front ++ word :: back ↔
      ∃ before after, s = before ++ word ++ after ∧ IsWord before word after ∧
        words before = front ∧ words after = back := by
  constructor
  · exact @exists_isWord [] s word front back (by simp)
  · rintro ⟨before, after, rfl, hword, rfl, rfl⟩
    exact hword.words_eq

/-- A word is read exactly if the text has it. -/
theorem mem_words_iff {s word : List Char} : word ∈ words s ↔ HasWord s word := by
  simp only [List.mem_iff_append, words_eq_append_cons_iff, HasWord]
  constructor
  · rintro ⟨_, _, before, after, hs, hword, -⟩
    exact ⟨before, after, hs, hword⟩
  · rintro ⟨before, after, hs, hword⟩
    exact ⟨_, _, before, after, hs, hword, rfl, rfl⟩

/-! ### Flags -/

/-- **A flag**: a word that spells one of the two names. -/
def IsFlag (word : List Char) : Prop := Spells word "base" ∨ Spells word "noranges"

theorem spells_base_iff {word : List Char} :
    word.map Char.toLower = "base".toList ↔ Spells word "base" := map_toLower_eq_iff (by simp)

theorem spells_noranges_iff {word : List Char} :
    word.map Char.toLower = "noranges".toList ↔ Spells word "noranges" :=
  map_toLower_eq_iff (by simp)

/-- No word spells both names. -/
theorem Spells.not_noranges {word : List Char} (h : Spells word "base") :
    ¬Spells word "noranges" := fun h' =>
  absurd (h.length_eq.symm.trans h'.length_eq) (by decide)

section WithFlag

variable (o : DescribeOptions) {word : List Char}

theorem withFlag?_of_base (h : Spells word "base") : o.withFlag? word = some o.onlyBase := by
  rw [withFlag?, spells_base_iff.mpr h, if_pos rfl]

theorem withFlag?_of_noranges (h : Spells word "noranges") :
    o.withFlag? word = some o.withoutRanges := by
  rw [withFlag?, spells_noranges_iff.mpr h, if_neg (by decide), if_pos rfl]

theorem withFlag?_of_not_isFlag (h : ¬IsFlag word) : o.withFlag? word = none := by
  obtain ⟨hbase, hranges⟩ := not_or.mp h
  rw [withFlag?, if_neg (mt spells_base_iff.mp hbase), if_neg (mt spells_noranges_iff.mp hranges)]

end WithFlag

/-- Options are the same if they say the same. -/
theorem eq_iff {o p : DescribeOptions} : o = p ↔ (p.baseOnly = true ↔ o.baseOnly = true) ∧
    (p.ranges = false ↔ o.ranges = false) ∧ p.indent = o.indent := by
  rcases o with ⟨_ | _, _ | _, indent⟩ <;> rcases p with ⟨_ | _, _ | _, indent'⟩ <;>
    simp [eq_comm]

/-- **Words are applied** exactly if all of them are flags, and each flag sets its option. -/
theorem applyAll_eq_ok_iff {o p : DescribeOptions} {flags : List (List Char)} :
    applyAll o flags = .ok p ↔ (∀ f ∈ flags, IsFlag f) ∧
      (p.baseOnly = true ↔ o.baseOnly = true ∨ ∃ f ∈ flags, Spells f "base") ∧
      (p.ranges = false ↔ o.ranges = false ∨ ∃ f ∈ flags, Spells f "noranges") ∧
      p.indent = o.indent := by
  induction flags generalizing o with
  | nil => simp [applyAll, eq_iff]
  | cons flag flags ih =>
    rw [applyAll]
    by_cases hflag : IsFlag flag
    · rcases id hflag with hbase | hranges
      · simp [withFlag?_of_base o hbase, ih, onlyBase, hflag, hbase, hbase.not_noranges]
      · have hbase : ¬Spells flag "base" := fun h => h.not_noranges hranges
        simp [withFlag?_of_noranges o hranges, ih, withoutRanges, hflag, hranges, hbase]
    · simp [withFlag?_of_not_isFlag o hflag, hflag]

/-- **Words are refused** exactly if there is a first one that is no flag, and it is named as it
is spelled. -/
theorem applyAll_eq_error_iff {o : DescribeOptions} {flags : List (List Char)}
    {cause : BinningError} :
    applyAll o flags = .error cause ↔ ∃ front word back, flags = front ++ word :: back ∧
      (∀ f ∈ front, IsFlag f) ∧ ¬IsFlag word ∧ cause = .unknownFlag (String.ofList word) := by
  induction flags generalizing o with
  | nil => simp [applyAll]
  | cons flag flags ih =>
    rw [applyAll]
    by_cases hflag : IsFlag flag
    · obtain ⟨p, hp⟩ : ∃ p, o.withFlag? flag = some p := by
        rcases hflag with hbase | hranges
        · exact ⟨_, withFlag?_of_base o hbase⟩
        · exact ⟨_, withFlag?_of_noranges o hranges⟩
      simp only [hp, ih]
      constructor
      · rintro ⟨front, word, back, rfl, hfront, hword⟩
        exact ⟨flag :: front, word, back, rfl, by simpa using ⟨hflag, hfront⟩, hword⟩
      · rintro ⟨front, word, back, hflags, hfront, hword⟩
        rcases List.cons_eq_append_iff.mp hflags with ⟨-, hfirst⟩ | ⟨front, rfl, rfl⟩
        · obtain ⟨rfl, -⟩ := List.cons.inj hfirst
          exact absurd hflag hword.1
        · exact ⟨front, word, back, rfl, fun f hf => hfront f (List.mem_cons_of_mem flag hf), hword⟩
    · simp only [withFlag?_of_not_isFlag o hflag]
      constructor
      · intro h
        exact ⟨[], flag, flags, rfl, by simp, hflag, (Except.error.inj h).symm⟩
      · rintro ⟨front, word, back, hflags, hfront, hword, rfl⟩
        rcases List.cons_eq_append_iff.mp hflags with ⟨-, hfirst⟩ | ⟨front, rfl, -⟩
        · rw [(List.cons.inj hfirst).1]
        · exact absurd (hfront flag List.mem_cons_self) hflag

/-! ### The language -/

/-- **What a flag string asks for**, if its words are flags. -/
theorem ofFlags_eq_ok_iff {s : String} {o : DescribeOptions} :
    ofFlags s = .ok o ↔ (∀ w, HasWord s.toList w → IsFlag w) ∧
      (o.baseOnly = true ↔ ∃ w, HasWord s.toList w ∧ Spells w "base") ∧
      (o.ranges = false ↔ ∃ w, HasWord s.toList w ∧ Spells w "noranges") ∧ o.indent = 0 := by
  simp [ofFlags, applyAll_eq_ok_iff, mem_words_iff, full]

/-- **The word that is to blame**: the words before it are flags, and it is not. -/
theorem ofFlags_eq_error_iff {s : String} {cause : BinningError} :
    ofFlags s = .error cause ↔ ∃ before word after, s.toList = before ++ word ++ after ∧
      IsWord before word after ∧ (∀ w, HasWord before w → IsFlag w) ∧ ¬IsFlag word ∧
      cause = .unknownFlag (String.ofList word) := by
  simp only [ofFlags, applyAll_eq_error_iff, words_eq_append_cons_iff]
  constructor
  · rintro ⟨_, word, _, ⟨before, after, hs, hword, rfl, -⟩, hbefore, hcause⟩
    exact ⟨before, word, after, hs, hword, fun w hw => hbefore w (mem_words_iff.mpr hw), hcause⟩
  · rintro ⟨before, word, after, hs, hword, hbefore, hcause⟩
    exact ⟨_, word, _, ⟨before, after, hs, hword, rfl, rfl⟩,
      fun w hw => hbefore w (mem_words_iff.mp hw), hcause⟩

/-- **The language of flag strings.** A string is understood exactly if each of its words spells
the name of a flag. Then a flag is set exactly if some word spells it, and nothing is indented, so
strings with the same words ask for the same, in whatever order, however often and however
separated they have them. A string that is not understood has a first word that is no flag, and
the error names it as it is spelled. -/
theorem ofFlags_language (s : String) :
    ((∃ o, ofFlags s = .ok o) ↔ ∀ w, HasWord s.toList w → IsFlag w) ∧
    (∀ o, ofFlags s = .ok o ↔ (∀ w, HasWord s.toList w → IsFlag w) ∧
      (o.baseOnly = true ↔ ∃ w, HasWord s.toList w ∧ Spells w "base") ∧
      (o.ranges = false ↔ ∃ w, HasWord s.toList w ∧ Spells w "noranges") ∧ o.indent = 0) ∧
    (∀ s' : String, (∀ w, HasWord s.toList w ↔ HasWord s'.toList w) →
      ∀ o, ofFlags s = .ok o ↔ ofFlags s' = .ok o) ∧
    ∀ cause, ofFlags s = .error cause ↔ ∃ before word after, s.toList = before ++ word ++ after ∧
      IsWord before word after ∧ (∀ w, HasWord before w → IsFlag w) ∧ ¬IsFlag word ∧
      cause = .unknownFlag (String.ofList word) := by
  refine ⟨⟨fun ⟨o, ho⟩ => (ofFlags_eq_ok_iff.mp ho).1, fun hflags => ?_⟩,
    fun o => ofFlags_eq_ok_iff, fun s' hsame o => ?_, fun cause => ofFlags_eq_error_iff⟩
  · cases h : ofFlags s with
    | ok o => exact ⟨o, rfl⟩
    | error cause =>
      obtain ⟨before, word, after, hs, hword, -, hbad, -⟩ := ofFlags_eq_error_iff.mp h
      exact absurd (hflags word ⟨before, after, hs, hword⟩) hbad
  · simp only [ofFlags_eq_ok_iff, hsame]

/-- Both flags, in another order and more than once, with a wide space and in capitals; and a
string whose second word only looks like a flag. -/
theorem ofFlags_language_lookalike :
    ofFlags "noranges\tBASE,,\u3000BASE" = .ok ⟨true, false, 0⟩ ∧
    (∃ w, HasWord "BASE,noranges".toList w ∧ Spells w "base") ∧
    ofFlags "base,ba\u017fe x" = .error (.unknownFlag "ba\u017fe") ∧
    ∃ before word after, "base,ba\u017fe x".toList = before ++ word ++ after ∧
      IsWord before word after ∧ (∀ w, HasWord before w → IsFlag w) ∧ ¬IsFlag word ∧
      BinningError.unknownFlag "ba\u017fe" = .unknownFlag (String.ofList word) := by
  obtain ⟨-, hok, hsame, -⟩ := ofFlags_language "BASE,noranges"
  have hasked : ofFlags "BASE,noranges" = .ok ⟨true, false, 0⟩ := by rfl
  have hwords : ∀ w, HasWord "BASE,noranges".toList w ↔
      HasWord "noranges\tBASE,,\u3000BASE".toList w := by
    intro w
    have hleft : words "BASE,noranges".toList = ["BASE".toList, "noranges".toList] := by rfl
    have hright : words "noranges\tBASE,,\u3000BASE".toList =
        ["noranges".toList, "BASE".toList, "BASE".toList] := by rfl
    rw [← mem_words_iff, ← mem_words_iff, hleft, hright]
    simp [or_comm]
  have hblame : ofFlags "base,ba\u017fe x" = .error (.unknownFlag "ba\u017fe") := by rfl
  exact ⟨(hsame _ hwords _).mp hasked, ((hok _).mp hasked).2.1.mp rfl, hblame,
    ((ofFlags_language "base,ba\u017fe x").2.2.2 _).mp hblame⟩

end DescribeOptions

end Binning
