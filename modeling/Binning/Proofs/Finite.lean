import Binning.Double.Reading
import Binning.Proofs.Numerals
import Mathlib

/-!
# Every double that is read is finite

A numeral is read by one multiplication, or by up to three divisions, of doubles
(`Binning.Double.scale?`). The product is looked at before it is accepted; the quotients are not.
They cannot overflow because they start below `2 ^ 64` and are divided by at least one, but each
division rounds, and so this needs the arithmetic of doubles itself.

The bound that is kept is on the *leading bit* (`Binning.Double.IsBelow`): a number is below
`2 ^ k` if it is finite and its leading bit is. Rounding raises this bound by at most one
(`Binning.Double.isBelow_roundWithAccuracy`), and writing a number in range as a pattern and
reading it again keeps it (`Binning.Double.IsBelow.repack`). A product adds the bounds
(`Binning.Double.IsBelow.mul`), and a quotient by at least one keeps the bound
(`Binning.Double.IsBelow.div`). That a power of ten is at least one is itself a matter of
rounding, from below (`Binning.Double.exists_roundWithAccuracy`).

* `Binning.Double.isFinite_of_ofNumeral` – a double that a numeral is read as is finite.
* `Binning.Double.isSome_ofNumeral_ofInt` – the numeral of an integer of at most 64 bits is in
  the range of doubles.
-/

namespace Binning

namespace Double

open Float.Model (Format UnpackedFloat)
open Float.Model.UnpackedFloat (Accuracy ExtendedMantissa)

/-- The format of doubles. -/
abbrev format : Format := Format.binary64

/-! ### Leading bits -/

/-- A shift to the right lowers the leading bit, unless nothing is left. -/
theorem log2_div_two_pow {m s : Nat} (h : m / 2 ^ s ≠ 0) : (m / 2 ^ s).log2 + s = m.log2 := by
  have hm : m ≠ 0 := by
    rintro rfl
    exact h (Nat.zero_div _)
  refine ((Nat.log2_eq_iff hm).mpr ⟨?_, ?_⟩).symm
  · rw [Nat.pow_add]
    exact (Nat.mul_le_mul_right _ (Nat.log2_self_le h)).trans (Nat.div_mul_le_self m _)
  · have hlt : m / 2 ^ s < 2 ^ ((m / 2 ^ s).log2 + 1) := Nat.lt_log2_self
    rw [Nat.div_lt_iff_lt_mul (Nat.two_pow_pos s), ← Nat.pow_add] at hlt
    exact hlt.trans_eq (congrArg _ (by omega))

/-- If nothing is left of a number, then its leading bit is shifted out. -/
theorem log2_le_of_div_two_pow {m s : Nat} (h : m / 2 ^ s = 0) : m.log2 ≤ s := by
  rcases eq_or_ne m 0 with rfl | hm
  · exact Nat.zero_le s
  · exact ((Nat.log2_lt hm).mpr ((Nat.div_eq_zero_iff_lt (Nat.two_pow_pos s)).mp h)).le

/-- The next number has the same leading bit or the next one. -/
theorem log2_succ_bounds (m : Nat) : m.log2 ≤ (m + 1).log2 ∧ (m + 1).log2 ≤ m.log2 + 1 := by
  have hlt : m < 2 ^ (m.log2 + 1) := Nat.lt_log2_self
  have hpow : 2 ^ (m.log2 + 2) = 2 * 2 ^ (m.log2 + 1) := by
    rw [Nat.pow_succ, Nat.mul_comm]
  have hupper : (m + 1).log2 < m.log2 + 2 :=
    (Nat.log2_lt (Nat.succ_ne_zero m)).mpr (by omega)
  refine ⟨?_, Nat.lt_succ_iff.mp hupper⟩
  rcases eq_or_ne m 0 with rfl | hm
  · exact Nat.zero_le _
  · exact (Nat.le_log2 (Nat.succ_ne_zero m)).mpr ((Nat.log2_self_le hm).trans (Nat.le_succ m))

/-- The leading bit of a product. -/
theorem log2_mul_le (m n : Nat) : (m * n).log2 ≤ m.log2 + n.log2 + 1 := by
  rcases Nat.eq_zero_or_pos (m * n) with h | h
  · rw [h, Nat.log2_zero]
    exact Nat.zero_le _
  · have hlt : m * n < 2 ^ (m.log2 + n.log2 + 2) := by
      rw [show m.log2 + n.log2 + 2 = (m.log2 + 1) + (n.log2 + 1) by omega, Nat.pow_add]
      exact Nat.mul_lt_mul'' Nat.lt_log2_self Nat.lt_log2_self
    exact Nat.lt_succ_iff.mp ((Nat.log2_lt (Nat.pos_iff_ne_zero.mp h)).mpr hlt)

/-- The leading bit of a quotient. -/
theorem log2_div_add_le {m n : Nat} (hn : n ≠ 0) (h : m / n ≠ 0) :
    (m / n).log2 + n.log2 ≤ m.log2 := by
  have hm : m ≠ 0 := by
    rintro rfl
    exact h (Nat.zero_div _)
  rw [Nat.le_log2 hm, Nat.pow_add]
  exact (Nat.mul_le_mul (Nat.log2_self_le h) (Nat.log2_self_le hn)).trans (Nat.div_mul_le_self m n)

/-- The leading bit after a shift to the left. -/
theorem log2_shiftLeft {m : Nat} (hm : m ≠ 0) (s : Nat) : (m <<< s).log2 = m.log2 + s := by
  have h : m <<< s / 2 ^ s = m := by
    rw [Nat.shiftLeft_eq, Nat.mul_div_cancel _ (Nat.two_pow_pos s)]
  have hlog := log2_div_two_pow (m := m <<< s) (s := s) (by rw [h]; exact hm)
  rw [h] at hlog
  exact hlog.symm

/-! ### Rounding -/

/-- A finite number below `2 ^ k`. -/
inductive IsBelow (k : Int) : UnpackedFloat → Prop where
  | zero (s : UnpackedFloat.Sign) : IsBelow k (.zero s)
  | finite {s : UnpackedFloat.Sign} {m : Nat} {e : Int} {hm : 0 < m} (h : (m.log2 : Int) + e < k) :
    IsBelow k (.finite s m e hm)

/-- Shifting a mantissa is a division. -/
theorem mantissa_shiftRight (em : ExtendedMantissa) (s : Nat) :
    (em >>> s).mantissa = em.mantissa / 2 ^ s := by
  induction s with
  | zero => simp [HShiftRight.hShiftRight, Nat.repeat]
  | succ s ih =>
    change (em >>> s).mantissa / 2 = _
    rw [ih, Nat.div_div_eq_div_mul, Nat.pow_succ]

/-- Rounding a mantissa adds one or nothing. -/
theorem roundedMantissa_bounds (em : ExtendedMantissa) :
    em.roundedMantissa = em.mantissa ∨ em.roundedMantissa = em.mantissa + 1 := by
  obtain ⟨m, round, sticky⟩ := em
  cases round <;> cases sticky <;>
    simp [ExtendedMantissa.roundedMantissa, ExtendedMantissa.accuracy,
      Accuracy.roundToNearestEven]
  omega

/-- A mantissa starts out as it is, whatever is known about what was cut off. -/
theorem mantissa_ofMantissaAndAccuracy (m : Nat) (acc : Accuracy) :
    (ExtendedMantissa.ofMantissaAndAccuracy m acc).mantissa = m := by
  cases acc with
  | exact => rfl
  | inexact o => cases o <;> rfl

/-- The number of bits that a mantissa loses: those beyond 53, and those below the least
exponent. -/
def excess (m : Nat) (e : Int) : Nat := (max ((m.log2 : Int) + e - 52) (-1074) - e).toNat

/-- The exponent that rounding aims at. -/
theorem targetExponent_eq (top : Int) : format.targetExponent top = max (top - 53) (-1074) := by
  simp only [Format.targetExponent, Format.mantissaBits, Format.minExponent]
  norm_num

/-- **A shift to the target exponent** drops the excess bits and adds their number to the
exponent. -/
theorem shiftToTargetExponent_eq (m : Nat) (e : Int) (acc : Accuracy) :
    (UnpackedFloat.shiftToTargetExponent format m e acc).1.mantissa = m / 2 ^ excess m e ∧
      (UnpackedFloat.shiftToTargetExponent format m e acc).2 = e + excess m e := by
  have hexcess :
      (format.targetExponent (Float.Model.totalExponent m e) - e).toNat = excess m e := by
    rw [targetExponent_eq, Float.Model.totalExponent, excess]
    omega
  rw [UnpackedFloat.shiftToTargetExponent, UnpackedFloat.shiftToExponent, hexcess]
  exact ⟨by rw [mantissa_shiftRight, mantissa_ofMantissaAndAccuracy], rfl⟩

/-- The leading bit after a shift and the rounding of what is left. -/
theorem log2_roundedMantissa_lt {k : Int} (hk : -1074 < k) {m : Nat} {e : Int} (acc : Accuracy)
    (h : (m.log2 : Int) + e < k) :
    ((UnpackedFloat.shiftToTargetExponent format m e acc).1.roundedMantissa.log2 : Int) +
      (UnpackedFloat.shiftToTargetExponent format m e acc).2 < k + 1 := by
  obtain ⟨hmantissa, hexponent⟩ := shiftToTargetExponent_eq m e acc
  generalize UnpackedFloat.shiftToTargetExponent format m e acc = p at *
  have hbound := roundedMantissa_bounds p.1
  by_cases hzero : m / 2 ^ excess m e = 0
  · -- at most the least bit comes back, and its exponent is the least one
    have hlog : p.1.roundedMantissa.log2 = 0 := by
      rcases Nat.le_one_iff_eq_zero_or_eq_one.mp (by omega : p.1.roundedMantissa ≤ 1) with h | h <;>
        rw [h] <;> rfl
    have hshifted := log2_le_of_div_two_pow hzero
    rw [hexponent, excess] at *
    omega
  · have hlog := log2_div_two_pow hzero
    have hsucc := log2_succ_bounds p.1.mantissa
    rw [← hmantissa] at hlog
    rcases hbound with h | h <;> rw [h] <;> omega

/-- **Rounding** raises the bound by at most one. -/
theorem isBelow_roundWithAccuracy {k : Int} (hk : -1074 < k) (sign : UnpackedFloat.Sign)
    {m : Nat} {e : Int} (acc : Accuracy) (h : (m.log2 : Int) + e < k) :
    IsBelow (k + 1) (UnpackedFloat.roundWithAccuracy format sign m e acc) := by
  have hround := log2_roundedMantissa_lt hk acc h
  rw [UnpackedFloat.roundWithAccuracy]
  generalize UnpackedFloat.shiftToTargetExponent format m e acc = first at *
  -- the second shift takes up a carry, and has nothing to round
  obtain ⟨hmantissa, hexponent⟩ :=
    shiftToTargetExponent_eq first.1.roundedMantissa first.2 .exact
  dsimp only
  generalize UnpackedFloat.shiftToTargetExponent format first.1.roundedMantissa first.2 .exact =
    second at *
  split
  · exact .zero sign
  · next hne =>
    rw [hmantissa] at hne
    have hlog := log2_div_two_pow hne
    rw [← hmantissa] at hlog
    exact .finite (by omega)

/-- A mantissa is not shifted out, and its leading bit is lowered, if it loses fewer bits than it
has. -/
theorem log2_div_excess {m : Nat} {e : Int} (h : excess m e < m.log2) :
    m / 2 ^ excess m e ≠ 0 ∧ (m / 2 ^ excess m e).log2 + excess m e = m.log2 := by
  have hne : m / 2 ^ excess m e ≠ 0 := fun hzero =>
    absurd (log2_le_of_div_two_pow hzero) (Nat.not_le.mpr h)
  exact ⟨hne, log2_div_two_pow hne⟩

/-- **Rounding keeps a lower bound**, for a mantissa of at least 53 bits and a number that is not
subnormal: the result has exactly 53 bits. -/
theorem exists_roundWithAccuracy (sign : UnpackedFloat.Sign) {m : Nat} {e : Int} (acc : Accuracy)
    (hm : 52 ≤ m.log2) (h : -1022 ≤ (m.log2 : Int) + e) :
    ∃ m' e' hpos, UnpackedFloat.roundWithAccuracy format sign m e acc =
      .finite sign m' e' hpos ∧ m'.log2 = 52 ∧ (m.log2 : Int) + e ≤ 52 + e' := by
  obtain ⟨hmantissa, hexponent⟩ := shiftToTargetExponent_eq m e acc
  have hexcess : excess m e + 52 = m.log2 := by
    rw [excess]
    omega
  obtain ⟨-, hlog⟩ := log2_div_excess (m := m) (e := e) (by omega)
  rw [← hmantissa] at hlog
  rw [UnpackedFloat.roundWithAccuracy]
  generalize UnpackedFloat.shiftToTargetExponent format m e acc = first at *
  -- a carry may give the rounded mantissa one bit more
  have hcarry : first.1.roundedMantissa.log2 = 52 ∨ first.1.roundedMantissa.log2 = 53 := by
    have hsucc := log2_succ_bounds first.1.mantissa
    rcases roundedMantissa_bounds first.1 with h | h <;> rw [h] <;> omega
  obtain ⟨hmantissa', hexponent'⟩ :=
    shiftToTargetExponent_eq first.1.roundedMantissa first.2 .exact
  have hexcess' : excess first.1.roundedMantissa first.2 + 52 =
      first.1.roundedMantissa.log2 := by
    rw [excess]
    omega
  obtain ⟨hne', hlog'⟩ :=
    log2_div_excess (m := first.1.roundedMantissa) (e := first.2) (by omega)
  dsimp only
  generalize UnpackedFloat.shiftToTargetExponent format first.1.roundedMantissa first.2 .exact =
    second at *
  rw [← hmantissa'] at hne' hlog'
  rw [dif_neg hne']
  exact ⟨_, _, _, rfl, by omega, by omega⟩

/-- Rounding an exact number, whose mantissa may also be lengthened, raises the bound by at most
one. -/
theorem isBelow_round {k : Int} (hk : -1074 < k) (sign : UnpackedFloat.Sign) {m : Nat}
    (hm : m ≠ 0) {e : Int} (h : (m.log2 : Int) + e < k) :
    IsBelow (k + 1) (UnpackedFloat.round format sign m e) := by
  refine isBelow_roundWithAccuracy hk sign .exact ?_
  rw [log2_shiftLeft hm]
  omega

/-! ### Patterns -/

/-- The bias of the exponent field, for whole mantissas. -/
theorem bias_eq : (format.exponentBias : Int) + format.mantissaBitsWithoutImplicit = 1075 := by
  decide

/-- The exponent field before it is cut to its bits. -/
theorem biased_eq (e : Int) :
    e + format.exponentBias + format.mantissaBitsWithoutImplicit = e + 1075 := by
  rw [Int.add_assoc, bias_eq]

/-- An exponent field that fits its bits. -/
theorem toNat_field {field : Nat} (h : field < 2048) :
    (BitVec.ofNat format.exponentBits field).toNat = field := by
  rw [BitVec.toNat_ofNat]
  exact Nat.mod_eq_of_lt h

/-- The mantissa of a number that is not subnormal has 53 bits. -/
theorem log2_leading (fraction : BitVec 52) : (1#1 ++ fraction).toNat.log2 = 52 := by
  have hleading : 2 ^ 52 ≤ (1#1 ++ fraction).toNat := by
    rw [BitVec.toNat_append]
    exact Nat.left_le_or
  have hpos := lt_of_lt_of_le (Nat.two_pow_pos 52) hleading
  exact (Nat.log2_eq_iff hpos.ne').mpr ⟨hleading, BitVec.isLt _⟩

/-- A number with a mantissa of `n` bits. -/
theorem isBelow_of_lt {k : Int} {sign : UnpackedFloat.Sign} {m n : Nat} {e : Int} {hm : 0 < m}
    (hn : m < 2 ^ n) (h : (n : Int) + e ≤ k) : IsBelow k (.finite sign m e hm) := by
  have hlog : m.log2 < n := (Nat.log2_lt (Nat.pos_iff_ne_zero.mp hm)).mpr hn
  exact .finite (by omega)

/-- A pattern whose exponent field is not all ones stands for a finite number. -/
theorem isBelow_unpack {k : Int} (b : BitVec format.numBits)
    (hfield : (UnpackedFloat.unpackExponent b).toNat < 2047)
    (h : ((UnpackedFloat.unpackExponent b).toNat : Int) - 1023 < k) :
    IsBelow k (UnpackedFloat.unpack format b) := by
  have hlast : UnpackedFloat.unpackExponent b ≠ -1#_ := by
    intro heq
    rw [heq] at hfield
    exact absurd hfield (by decide)
  rw [UnpackedFloat.unpack]
  dsimp only
  rw [if_neg hlast, bias_eq]
  split
  · next hzero =>
    -- a subnormal number has the exponent of the field `1`
    have hnone : (UnpackedFloat.unpackExponent b).toNat = 0 := by rw [hzero]; rfl
    split
    · exact .zero _
    · exact isBelow_of_lt (BitVec.isLt _) (by omega)
  · exact isBelow_of_lt (BitVec.isLt _) (by omega)

/-- The same of a pattern that is put together. -/
theorem isBelow_unpack_packComponents {k : Int} (sign : UnpackedFloat.Sign)
    (field : BitVec format.exponentBits) (fraction : BitVec format.mantissaBitsWithoutImplicit)
    (hfield : field.toNat < 2047) (h : (field.toNat : Int) - 1023 < k) :
    IsBelow k (UnpackedFloat.unpack format
      (UnpackedFloat.packComponents format sign field fraction)) := by
  apply isBelow_unpack <;> rw [UnpackedFloat.unpackExponent_packComponents]
  · exact hfield
  · exact h

/-- **A number in range stays finite** when its pattern is written and read again. -/
theorem IsBelow.repack {k : Int} (hlow : -1022 ≤ k) (hhigh : k ≤ 971) {f : UnpackedFloat}
    (h : IsBelow k f) : IsBelow k (UnpackedFloat.unpack format (UnpackedFloat.pack format f)) := by
  have hleast : ((0#11).toNat : Int) - 1023 < k := lt_of_lt_of_le (by decide) hlow
  cases h with
  | zero s => exact isBelow_unpack_packComponents s _ _ (by decide) hleast
  | @finite s m e hm h =>
    have hpow : 2 ^ format.exponentBits = 2048 := rfl
    rw [UnpackedFloat.pack]
    dsimp only
    rw [biased_eq, hpow, if_neg (by omega)]
    split
    · next hnormal =>
      have hbits : format.mantissaBits = 53 := rfl
      apply isBelow_unpack_packComponents <;> rw [toNat_field (by omega)] <;> omega
    · exact isBelow_unpack_packComponents s _ _ (by decide) hleast

/-- A number of at least one with 53 bits, or an infinity. -/
inductive IsAtLeastOne : UnpackedFloat → Prop where
  | infinity (s : UnpackedFloat.Sign) : IsAtLeastOne (.infinity s)
  | finite {s : UnpackedFloat.Sign} {m : Nat} {e : Int} {hm : 0 < m} (hlog : m.log2 = 52)
    (he : -52 ≤ e) : IsAtLeastOne (.finite s m e hm)

instance : DecidablePred IsAtLeastOne
  | .infinity s => .isTrue (.infinity s)
  | .notANumber => .isFalse nofun
  | .zero _ => .isFalse nofun
  | .finite _ m e _ =>
    if h : m.log2 = 52 ∧ -52 ≤ e then .isTrue (.finite h.1 h.2)
    else .isFalse fun | .finite hlog he => h ⟨hlog, he⟩

/-- **A number of at least one stays so**, or overflows, when its pattern is written and read
again. -/
theorem IsAtLeastOne.repack {f : UnpackedFloat} (h : IsAtLeastOne f) :
    IsAtLeastOne (UnpackedFloat.unpack format (UnpackedFloat.pack format f)) := by
  have hinfinite : ∀ s, IsAtLeastOne
      (UnpackedFloat.unpack format (UnpackedFloat.packedInfinity format s)) := by
    intro s
    cases s <;> exact .infinity _
  cases h with
  | infinity s => exact hinfinite s
  | @finite s m e hm hlog he =>
    have hpow : 2 ^ format.exponentBits = 2048 := rfl
    have hbits : format.mantissaBits = 53 := rfl
    rw [UnpackedFloat.pack]
    dsimp only
    rw [biased_eq, hpow, hlog, hbits]
    split
    · exact hinfinite s
    · next hfits =>
      have hfield : (BitVec.ofNat format.exponentBits (e + 1075).toNat).toNat =
          (e + 1075).toNat := toNat_field (by omega)
      have hlast : BitVec.ofNat format.exponentBits (e + 1075).toNat ≠ -1#_ := by
        intro heq
        have : (e + 1075).toNat = 2047 := by rw [← hfield, heq]; rfl
        omega
      have hfirst : BitVec.ofNat format.exponentBits (e + 1075).toNat ≠ 0#_ := by
        intro heq
        have : (e + 1075).toNat = 0 := by rw [← hfield, heq]; rfl
        omega
      rw [if_pos rfl, UnpackedFloat.unpack, UnpackedFloat.unpackExponent_packComponents]
      dsimp only
      rw [if_neg hlast, if_neg hfirst, hfield, bias_eq]
      exact .finite (log2_leading _) (by omega)

/-- **A product adds the bounds**, and one for rounding. -/
theorem IsBelow.mul {k l : Int} (hlow : -1074 < k + l) {f g : UnpackedFloat} (hf : IsBelow k f)
    (hg : IsBelow l g) : IsBelow (k + l + 1) (UnpackedFloat.mul format f g) := by
  cases hf with
  | zero s => cases hg <;> exact .zero _
  | @finite s m e hm hf =>
    cases hg with
    | zero t => exact .zero _
    | @finite t n d hn hg =>
      have hlog := log2_mul_le m n
      exact isBelow_roundWithAccuracy hlow _ _ (by omega)

/-- **A quotient by at least one keeps the bound**, but for rounding. -/
theorem IsBelow.div {k : Int} (hlow : -1074 < k) {f g : UnpackedFloat} (hf : IsBelow k f)
    (hg : IsAtLeastOne g) : IsBelow (k + 1) (UnpackedFloat.div format f g) := by
  cases hf with
  | zero s => cases hg <;> exact .zero _
  | @finite s m e hm hf =>
    cases hg with
    | infinity t => exact .zero _
    | @finite t n d hn hlog hd =>
      refine isBelow_roundWithAccuracy hlow _ _ ?_
      rw [targetExponent_eq, Float.Model.totalExponent, Float.Model.totalExponent]
      generalize hshift : (e - d - min (e - d) _).toNat = shift
      by_cases hzero : m <<< shift / n = 0
      · rw [hzero, Nat.log2_zero]
        omega
      · have hquotient := log2_div_add_le hn.ne' hzero
        rw [log2_shiftLeft hm.ne'] at hquotient
        omega

/-! ### Doubles -/

/-- **The double is finite and below `2 ^ k`**, whatever its sign. -/
def Below (k : Int) (x : Double) : Prop := IsBelow k (UnpackedFloat.unpack format x.bits.toBitVec)

/-- The exponent field of a double that is not finite is all ones. -/
theorem unpackExponent_of_not_isFinite {x : Double} (h : ¬x.isFinite = true) :
    @UnpackedFloat.unpackExponent format x.bits.toBitVec = -1#_ := by
  have hlt : x.bits.toNat < 2 ^ 64 := x.bits.toNat_lt
  rw [isFinite, decide_eq_true_eq, magnitude, infiniteMagnitude] at h
  apply BitVec.eq_of_toNat_eq
  rw [UnpackedFloat.unpackExponent, BitVec.toNat_cast, BitVec.extractLsb_toNat,
    Nat.shiftRight_eq_div_pow]
  change x.bits.toNat / 2 ^ 52 % 2 ^ 11 = 2047
  omega

/-- A double below a power of two is finite. -/
theorem Below.isFinite {k : Int} {x : Double} (h : x.Below k) : x.isFinite = true := by
  by_contra hinfinite
  rw [Below, UnpackedFloat.unpack] at h
  dsimp only at h
  rw [if_pos (unpackExponent_of_not_isFinite hinfinite)] at h
  split at h <;> cases h

/-- The machine number of a double in range stands for the same number. -/
theorem Below.toFloat {k : Int} (hlow : -1022 ≤ k) (hhigh : k ≤ 971) {x : Double}
    (h : x.Below k) : IsBelow k x.toFloat.toModel.unpack := IsBelow.repack hlow hhigh h

/-- The double of a result in range. -/
theorem below_ofFloat {k : Int} (hlow : -1022 ≤ k) (hhigh : k ≤ 971) {f : UnpackedFloat}
    (h : IsBelow k f) : (ofFloat (.ofModel (.pack f))).Below k := IsBelow.repack hlow hhigh h

/-- The double nearest to a natural number times a power of ten. -/
theorem nearest_natCast (m k : Nat) : nearest m k = ofFloat (Float.ofScientific m false k) := by
  rw [nearest, decide_eq_false (Int.natCast_nonneg k).not_gt, Int.natAbs_natCast]

/-- A natural number times a power of ten, rounded. -/
theorem ofScientific_natCast {m k : Nat} (hm : m ≠ 0) (hk : k ≤ largestPower) :
    UnpackedFloat.ofScientific format m k = UnpackedFloat.roundWithAccuracy format .positive
      (m <<< 53 * 10 ^ k) (-53) .exact := by
  have hpow : (2 : Int) ^ format.exponentBits = 2048 := rfl
  rw [largestPower] at hk
  rw [UnpackedFloat.ofScientific, dif_neg hm, hpow, if_neg (by omega), if_neg (by omega),
    if_pos (by omega)]
  rfl

/-- A power of ten is at least one. -/
theorem isAtLeastOne_powerOfTen {k : Nat} (hk : k ≤ largestPower) :
    IsAtLeastOne (powerOfTen k).toFloat.toModel.unpack := by
  by_cases hsmall : k ≤ 22
  · -- these powers are exact, and come from a table
    have htable : ∀ k ≤ 22, IsAtLeastOne (powerOfTen k).toFloat.toModel.unpack := by
      decide +kernel
    exact htable k hsmall
  · rw [powerOfTen, nearest_natCast, Float.ofScientific, dif_neg (fun h => hsmall h.2)]
    refine IsAtLeastOne.repack (IsAtLeastOne.repack ?_)
    change IsAtLeastOne (UnpackedFloat.ofScientific format 1 k)
    rw [ofScientific_natCast one_ne_zero hk]
    have hpower : 0 < 10 ^ k := Nat.pow_pos (by decide)
    have hmantissa : 53 ≤ (1 <<< 53 * 10 ^ k).log2 :=
      (Nat.le_log2 (Nat.mul_pos (by decide) hpower).ne').mpr (Nat.le_mul_of_pos_right _ hpower)
    obtain ⟨m, e, hpos, heq, hlog, hbound⟩ :=
      exists_roundWithAccuracy .positive (m := 1 <<< 53 * 10 ^ k) (e := -53) .exact
        (by omega) (by omega)
    rw [heq]
    exact .finite hlog (by omega)

/-- **A quotient by a power of ten** keeps the bound, but for rounding. -/
theorem Below.div_powerOfTen {k : Int} (hlow : -1022 ≤ k) (hhigh : k ≤ 970) {x : Double}
    (h : x.Below k) {e : Nat} (he : e ≤ largestPower) : (x / powerOfTen e).Below (k + 1) :=
  below_ofFloat (by omega) (by omega)
    (IsBelow.div (by omega) (h.toFloat hlow (by omega)) (isAtLeastOne_powerOfTen he))

/-- A machine integer, rounded. -/
theorem isBelow_toFloat (n : UInt64) : IsBelow 65 n.toFloat.toModel.unpack := by
  refine IsBelow.repack (by decide) (by decide) ?_
  change IsBelow 65 (UnpackedFloat.normalize format (n.toNat : Int) 0 .positive)
  rw [UnpackedFloat.normalize]
  rcases Nat.eq_zero_or_pos n.toNat with hzero | hpos
  · rw [hzero]
    exact .zero _
  · rw [compare_gt_iff_gt.mpr (Int.natCast_pos.mpr hpos)]
    have hlog : n.toNat.log2 < 64 := (Nat.log2_lt hpos.ne').mpr n.toNat_lt
    exact isBelow_round (k := 64) (by decide) .positive hpos.ne' (by omega)

/-- The first entry of the table of powers of ten. -/
theorem isBelow_one : IsBelow 1 Float.exactlyRepresentablePowersOfTen[0].toModel.unpack :=
  IsBelow.repack (by decide) (by decide) (isBelow_unpack _ (by decide) (by decide))

/-- A natural number, rounded. -/
theorem isBelow_ofScientific {n : Nat} (hzero : n ≠ 0) (hn : n < significandBound) :
    IsBelow 67 (UnpackedFloat.ofScientific format n (0 : Nat)) := by
  have hlog : n.log2 < 64 := (Nat.log2_lt hzero).mpr hn
  rw [ofScientific_natCast hzero (Nat.zero_le _), Nat.pow_zero, Nat.mul_one]
  apply isBelow_roundWithAccuracy (k := 66) (by decide)
  rw [log2_shiftLeft hzero]
  omega

/-- **A natural number of at most 64 bits** is in range, with some room for rounding. -/
theorem below_ofNat {n : Nat} (hn : n < significandBound) : (ofNat n).Below 67 := by
  rw [ofNat, ← Int.natCast_zero, nearest_natCast, Float.ofScientific]
  split
  · exact below_ofFloat (by decide) (by decide)
      ((isBelow_toFloat n.toUInt64).mul (by decide) isBelow_one)
  · next hlarge =>
    have hzero : n ≠ 0 := by
      rintro rfl
      exact hlarge ⟨by decide, by decide⟩
    exact below_ofFloat (by decide) (by decide) (isBelow_ofScientific hzero hn)

/-- A product of doubles in range. -/
theorem Below.mul {k l : Int} {x y : Double} (hx : x.Below k) (hy : y.Below l)
    (hk : -511 ≤ k ∧ k ≤ 485) (hl : -511 ≤ l ∧ l ≤ 485) : (x * y).Below (k + l + 1) :=
  below_ofFloat (by omega) (by omega) (IsBelow.mul (by omega)
    (hx.toFloat (by omega) (by omega)) (hy.toFloat (by omega) (by omega)))

/-- Changing the sign keeps the magnitude. -/
theorem magnitude_neg (x : Double) : (-x).magnitude = x.magnitude := by
  change (x.bits ^^^ 0x8000000000000000).toNat % 2 ^ 63 = x.bits.toNat % 2 ^ 63
  rw [UInt64.toNat_xor, Nat.xor_mod_two_pow]
  exact Nat.xor_zero _

/-- Divisions in steps keep a double finite. -/
theorem isFinite_scaleDown {fuel : Nat} {b : Int} (hlow : -1022 ≤ b) (hhigh : b + fuel ≤ 971)
    {x : Double} (h : x.Below b) (k : Nat) : (scaleDown fuel x k).isFinite = true := by
  induction fuel generalizing b x k with
  | zero => exact h.isFinite
  | succ fuel ih =>
    rw [scaleDown]
    split
    · next hk => exact (h.div_powerOfTen hlow (by omega) hk).isFinite
    · split
      · exact h.isFinite
      · exact ih (by omega) (by omega) (h.div_powerOfTen hlow (by omega) (Nat.le_refl _)) _

/-- A significand times a power of ten is finite, if it is in range. -/
theorem isFinite_of_scale {s : Nat} (hs : s < significandBound) {e : Int} {x : Double}
    (h : scale? s e = some x) : x.isFinite = true := by
  rw [scale?] at h
  dsimp only at h
  split at h
  · cases h
    exact isFinite_scaleDown (by decide) (by decide) (below_ofNat hs) _
  · split at h
    · split at h
      · next hfinite =>
        cases h
        exact hfinite
      · cases h
    · split at h
      · cases h
        exact (below_ofNat hs).isFinite
      · cases h

/-- Whole digits leave the significand below its bound. -/
theorem takeWhole_lt {s : Nat} (hs : s < significandBound) (ds : List Digit) :
    (takeWhole s ds).1 < significandBound := by
  induction ds generalizing s with
  | nil => exact hs
  | cons d ds ih =>
    rw [takeWhole]
    split
    · next h => exact ih h
    · exact hs

/-- Fraction digits leave the significand below its bound. -/
theorem takeFraction_lt {s : Nat} (hs : s < significandBound) (ds : List Digit) :
    (takeFraction s ds).1 < significandBound := by
  induction ds generalizing s with
  | nil => exact hs
  | cons d ds ih =>
    rw [takeFraction]
    split
    · next h => exact ih h
    · exact hs

/-- The significand of a numeral has at most 64 bits. -/
theorem significand_lt (n : Numeral) : (significand n).1 < significandBound :=
  takeFraction_lt (takeWhole_lt (by decide) n.whole) n.fraction

/-- **A double that is read is finite.** -/
theorem isFinite_of_ofNumeral {n : Numeral} {x : Double} (h : ofNumeral? n = some x) :
    x.isFinite = true := by
  obtain ⟨y, hscale, hsign⟩ := Option.map_eq_some_iff.mp h
  have hy := isFinite_of_scale (significand_lt n) hscale
  split at hsign
  · rw [← hsign, isFinite, magnitude_neg]
    exact hy
  · rw [← hsign]
    exact hy

/-- Digits after a number only make it larger. -/
theorem le_foldl_digits (s : Nat) (ds : List Digit) :
    s ≤ ds.foldl (fun n d => n * 10 + d.val) s := by
  induction ds generalizing s with
  | nil => exact Nat.le_refl s
  | cons d ds ih => exact le_trans (by omega) (ih (s * 10 + d.val))

/-- All whole digits are taken if the number they write is in range. -/
theorem takeWhole_eq {s : Nat} {ds : List Digit}
    (h : ds.foldl (fun n d => n * 10 + d.val) s < significandBound) :
    takeWhole s ds = (ds.foldl (fun n d => n * 10 + d.val) s, 0) := by
  induction ds generalizing s with
  | nil => rfl
  | cons d ds ih =>
    rw [takeWhole, if_pos (lt_of_le_of_lt (le_foldl_digits _ ds) h)]
    exact ih h

/-- **The integers of at most 64 bits** are in the range of doubles. -/
theorem isSome_ofNumeral_ofInt {n : Int} (hn : n.natAbs < significandBound) :
    (ofNumeral? (Numeral.ofInt n)).isSome = true := by
  have hvalue : (Digit.listOf n.natAbs).foldl (fun n d => n * 10 + d.val) 0 = n.natAbs :=
    Digit.value_listOf n.natAbs
  have hwhole : takeWhole 0 (Digit.listOf n.natAbs) = (n.natAbs, 0) := by
    rw [takeWhole_eq (by rw [hvalue]; exact hn), hvalue]
  have hsignificand : significand (Numeral.ofInt n) = (n.natAbs, 0) := by
    rw [significand, Numeral.ofInt, hwhole]
    rfl
  have hfinite : (ofNat n.natAbs * powerOfTen 0).isFinite = true :=
    ((below_ofNat hn).mul (below_ofNat (by decide : 1 < significandBound)) (by decide)
      (by decide)).isFinite
  rw [ofNumeral?, hsignificand]
  dsimp only
  rw [scale?]
  simp [hfinite]

end Double

end Binning
