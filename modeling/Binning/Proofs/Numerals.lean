import Binning.Double.Layout
import Mathlib.Tactic.Ring

/-!
# Numerals that are written

The numerals of JSON have a grammar of their own (`Binning.Numeral.Grammatical`): there is at
least one digit before the point, no zero before another, and at least one digit in an
exponent. A list of digits may break these rules, so it has to be shown of every numeral that is
written that it does not.

* The digits of a natural number have no leading zero, and they are its digits
  (`Binning.Digit.exists_listOf`). So the numeral of an integer is grammatical
  (`Binning.Numeral.grammatical_ofInt`) and writes this integer
  (`Binning.Numeral.toInt?_ofInt`).
* The shortest decimal of a double other than zero has a digit other than zero
  (`Binning.Dyadic.shortest_ne_zero`): a decimal without any does not read back, so the search
  never ends there. So every finite double has a grammatical numeral, in any layout
  (`Binning.Layout.grammatical_numeral`).
-/

namespace Binning

/-! ### Digits -/

namespace Digit

/-- A digit is read from its own character. -/
theorem ofChar?_char : ∀ d : Digit, ofChar? d.char = some d := by decide

theorem value_concat (ds : List Digit) (d : Digit) : value (ds ++ [d]) = value ds * 10 + d.val := by
  rw [value, value, List.foldl_append, List.foldl_cons, List.foldl_nil]

/-- **The digits before others** are those of the number, without a leading zero. -/
theorem exists_prepend {fuel n : Nat} (acc : List Digit) (hfuel : n < fuel) :
    ∃ d rest, prepend fuel n acc = d :: rest ++ acc ∧ value (d :: rest) = n ∧
      (n ≠ 0 → d.val ≠ 0) ∧ (n = 0 → rest = []) := by
  induction fuel generalizing n acc with
  | zero => exact absurd hfuel (Nat.not_lt_zero n)
  | succ fuel ih =>
    rw [prepend]
    by_cases hten : n < 10
    · refine ⟨⟨n % 10, Nat.mod_lt _ (by decide)⟩, [], ?_, ?_, ?_, ?_⟩
      · rw [if_pos hten]
        rfl
      · simp [value, Nat.mod_eq_of_lt hten]
      · simp [Nat.mod_eq_of_lt hten]
      · exact fun _ => rfl
    · simp only [hten, ↓reduceIte]
      obtain ⟨d, rest, heq, hvalue, hlead, -⟩ :=
        ih (⟨n % 10, Nat.mod_lt _ (by decide)⟩ :: acc) (n := n / 10) (by omega)
      refine ⟨d, rest ++ [⟨n % 10, Nat.mod_lt _ (by decide)⟩], by simp [heq], ?_, fun _ => ?_, ?_⟩
      · rw [← List.cons_append, value_concat, hvalue]
        dsimp only
        omega
      · exact hlead (by omega)
      · omega

/-- **The digits of a number**: there is one, the first is not zero unless it is the only one,
and they write the number. -/
theorem exists_listOf (n : Nat) : ∃ d rest, listOf n = d :: rest ∧ value (d :: rest) = n ∧
    (n ≠ 0 → d.val ≠ 0) ∧ (n = 0 → rest = []) := by
  obtain ⟨d, rest, heq, hvalue, hlead, hzero⟩ := exists_prepend [] (Nat.lt_succ_self n)
  exact ⟨d, rest, by rw [listOf, heq, List.append_nil], hvalue, hlead, hzero⟩

/-- The digits of a number write it. -/
theorem value_listOf (n : Nat) : value (listOf n) = n := by
  obtain ⟨d, rest, heq, hvalue, -⟩ := exists_listOf n
  rw [heq, hvalue]

/-- **Digits that may stand before the point**: at least one, and no zero before another. -/
def Whole : List Digit → Prop
  | [] => False
  | d :: rest => rest = [] ∨ d.val ≠ 0

/-- The digits of a number may stand before the point. -/
theorem whole_listOf (n : Nat) : Whole (listOf n) := by
  obtain ⟨d, rest, heq, -, hlead, hzero⟩ := exists_listOf n
  rw [heq]
  rcases Nat.eq_zero_or_pos n with hn | hn
  · exact Or.inl (hzero hn)
  · exact Or.inr (hlead (Nat.pos_iff_ne_zero.mp hn))

theorem listOf_ne_nil (n : Nat) : listOf n ≠ [] := by
  obtain ⟨d, rest, heq, -⟩ := exists_listOf n
  rw [heq]
  exact List.cons_ne_nil d rest

end Digit

/-! ### Numerals -/

namespace Numeral

open Digit

/-- **The numeral follows the grammar of JSON.** -/
structure Grammatical (n : Numeral) : Prop where
  whole : Whole n.whole
  exponent : ∀ e, n.exponent = some e → e.digits ≠ []

/-- The numeral of an integer is grammatical. -/
theorem grammatical_ofInt (n : Int) : (ofInt n).Grammatical where
  whole := whole_listOf n.natAbs
  exponent _ h := nomatch h

/-- The numeral of an integer writes the integer. -/
theorem toInt?_ofInt (n : Int) : (ofInt n).toInt? = some n := by
  unfold toInt? ofInt
  simp only [List.isEmpty_nil, Option.isNone_none, Bool.and_self, ↓reduceIte, value_listOf,
    decide_eq_true_eq]
  split
  · next hneg =>
    rw [if_neg (by omega)]
    congr 1
    omega
  · next hpos =>
    congr 1
    omega

end Numeral

/-! ### The shortest decimal -/

namespace Dyadic

/-- A dyadic that is not zero. -/
theorem ofMagnitude_pos {b : Nat} (h : b ≠ 0) : 0 < (ofMagnitude b).mantissa := by
  unfold ofMagnitude leadingBit
  dsimp only
  split
  · next hfield =>
    rw [Nat.mod_eq_of_lt (by omega)]
    exact Nat.pos_of_ne_zero h
  · exact Nat.add_pos_left (by decide) _

/-- A decimal without a digit other than zero does not read back as a double other than zero. -/
theorem readsBack_zero {x : Dyadic} (hx : 0 < x.mantissa) (e : Int) :
    x.readsBack ⟨0, e⟩ = false := by
  -- It lies below the midpoint to the double below.
  have hbelow : ∀ {low : Nat} (q : Int), 0 < low → compareScaled 0 e low q = .lt := by
    intro low q hlow
    unfold compareScaled
    rw [Nat.zero_mul, Nat.zero_mul, Nat.compare_eq_lt]
    exact Nat.mul_pos (Nat.mul_pos hlow (Nat.pow_pos (by decide))) (Nat.pow_pos (by decide))
  unfold readsBack
  dsimp only
  rw [hbelow _ (by split <;> omega)]
  simp

/-- A decimal on a grid reads back. -/
theorem readsBack_of_onGrid {x : Dyadic} {tie : Tie} {e : Int} {d : Decimal}
    (h : x.onGrid tie e = some d) : x.readsBack d = true := by
  unfold onGrid at h
  dsimp only at h
  split at h
  · cases h
  · next hbelow _ => exact Option.some.inj h ▸ hbelow
  · next _ habove => exact Option.some.inj h ▸ habove
  · next hbelow habove =>
    split at h
    · exact Option.some.inj h ▸ hbelow
    · exact Option.some.inj h ▸ habove
    · split at h
      · exact Option.some.inj h ▸ habove
      · split at h
        · exact Option.some.inj h ▸ hbelow
        · exact Option.some.inj h ▸ habove

/-- A decimal that is found reads back. -/
theorem readsBack_of_search {x : Dyadic} {tie : Tie} {scale : Int} {fuel n : Nat} {d : Decimal}
    (h : x.search tie scale fuel n = some d) : x.readsBack d = true := by
  induction fuel generalizing n with
  | zero => cases h
  | succ fuel ih =>
    rw [search] at h
    split at h
    · next d' hgrid =>
      obtain rfl : d' = d := Option.some.inj h
      exact readsBack_of_onGrid hgrid
    · exact ih h

/-- Only trailing zeros are removed. -/
theorem strip_ne_zero {fuel : Nat} {d : Decimal} (h : d.digits ≠ 0) :
    (d.strip fuel).digits ≠ 0 := by
  induction fuel generalizing d with
  | zero => exact h
  | succ fuel ih =>
    rw [Decimal.strip]
    split
    · next hzeros =>
      refine ih ?_
      dsimp only
      omega
    · exact h

/-- **The shortest decimal has a digit other than zero.** -/
theorem shortest_ne_zero {x : Dyadic} (hx : 0 < x.mantissa) (tie : Tie) :
    (x.shortest tie).digits ≠ 0 := by
  unfold shortest
  refine strip_ne_zero ?_
  cases h : x.search tie x.scale 17 1 with
  | none =>
    refine Nat.mul_ne_zero (Nat.mul_ne_zero hx.ne' ?_) ?_
    · exact (Nat.pow_pos (by decide)).ne'
    · exact (Nat.pow_pos (by decide)).ne'
  | some d =>
    rintro hzero
    obtain ⟨digits, e⟩ := d
    obtain rfl : digits = 0 := hzero
    have hreads := readsBack_of_search h
    rw [readsBack_zero hx] at hreads
    cases hreads

end Dyadic

namespace Layout

open Digit

/-- **Every finite double has a grammatical numeral**, in any layout. -/
theorem grammatical_numeral (l : Layout) (x : Double) : (l.numeral x).Grammatical := by
  unfold numeral
  split
  · exact ⟨Or.inl rfl, fun _ h => nomatch h⟩
  · next hzero =>
    have hdigits := Dyadic.shortest_ne_zero (Dyadic.ofMagnitude_pos hzero) l.tie
    generalize (Dyadic.ofMagnitude x.magnitude).shortest l.tie = d at hdigits
    obtain ⟨first, rest, heq, -, hlead, -⟩ := exists_listOf d.digits
    have hfirst := hlead hdigits
    dsimp only
    split
    · unfold positional
      rw [heq]
      dsimp only
      split
      · exact ⟨Or.inr hfirst, fun _ h => nomatch h⟩
      · split
        · next hbehind =>
          -- There are digits left before the point, and the first one is among them.
          obtain ⟨k, hk⟩ : ∃ k, (first :: rest).length - (-d.exponent).toNat = k + 1 :=
            Nat.exists_eq_succ_of_ne_zero (by omega)
          rw [hk]
          exact ⟨Or.inr hfirst, fun _ h => nomatch h⟩
        · exact ⟨Or.inl rfl, fun _ h => nomatch h⟩
    · unfold scientific
      rw [heq]
      refine ⟨Or.inl rfl, ?_⟩
      rintro e he
      obtain rfl := Option.some.inj he
      exact listOf_ne_nil _

end Layout

end Binning
