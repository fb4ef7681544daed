import Mathlib
import LiveSheet.Decimal.Style

/-! # Rounding of numbers that need none

A finite number other than zero is a significand, of full length if it can be, at a binary
exponent. Where the exact result of an operation is such a number, rounding finds only zeros to
drop; so a decimal that is a floating-point number reads as that number. A number of `2 ^ 1024`
or more reads as infinity. -/

namespace LiveSheet.Binary

open Float.Model Float.Model.UnpackedFloat

/-- The number `m * 2 ^ e`. -/
def value (m : Nat) (e : Int) : ℚ :=
  m * 2 ^ e

/-- A significand and an exponent as a finite number other than zero has them: the significand is
of full length unless the exponent is the least one. -/
structure Canonical (m : Nat) (e : Int) : Prop where
  pos : 0 < m
  lt : m < 2 ^ 53
  le : -1074 ≤ e
  full : 2 ^ 52 ≤ m ∨ e = -1074

variable {m m₀ m₁ m₂ : Nat} {e e₀ e₁ e₂ : Int}

theorem value_mul : value m₁ e₁ * value m₂ e₂ = value (m₁ * m₂) (e₁ + e₂) := by
  rw [value, value, value, zpow_add₀ two_ne_zero, Nat.cast_mul]
  ring

theorem value_shift (m k : Nat) (e : Int) : value (m * 2 ^ k) (e - k) = value m e := by
  rw [value, value, zpow_sub₀ two_ne_zero, zpow_natCast]
  push_cast
  field_simp

theorem value_inj : value m e = value m₀ e ↔ m = m₀ := by
  rw [value, value, mul_left_inj' (zpow_ne_zero _ two_ne_zero), Nat.cast_inj]

/-- A number in smaller units has trailing zeros. -/
theorem eq_shift_of_value_eq (h : value m e = value m₀ e₀) (he : e ≤ e₀) :
    m = m₀ * 2 ^ (e₀ - e).toNat := by
  rw [← value_shift m₀ (e₀ - e).toNat e₀, Int.toNat_of_nonneg (by omega),
    sub_sub_cancel, value_inj] at h
  exact h

theorem two_zpow_log2_le (hm : 0 < m) : (2 : ℚ) ^ ((m.log2 : Int) + e) ≤ value m e := by
  rw [value, zpow_add₀ two_ne_zero, zpow_natCast]
  gcongr
  exact_mod_cast Nat.log2_self_le hm.ne'

theorem value_lt_two_zpow_log2 : value m e < (2 : ℚ) ^ ((m.log2 : Int) + e + 1) := by
  rw [value, add_right_comm, zpow_add₀ two_ne_zero, ← Nat.cast_succ, zpow_natCast]
  gcongr
  exact_mod_cast Nat.lt_log2_self

/-- The place of the highest bit depends on the number alone. -/
theorem log2_add_eq (hm : 0 < m) (hm₀ : 0 < m₀) (h : value m e = value m₀ e₀) :
    (m.log2 : Int) + e = m₀.log2 + e₀ := by
  have hlt : ∀ {a b : Int}, (2 : ℚ) ^ a < 2 ^ (b + 1) → a ≤ b := fun hab =>
    Int.lt_add_one_iff.mp ((zpow_lt_zpow_iff_right₀ one_lt_two).mp hab)
  refine le_antisymm (hlt ?_) (hlt ?_)
  · exact (two_zpow_log2_le hm).trans_lt (h ▸ value_lt_two_zpow_log2)
  · exact (two_zpow_log2_le hm₀).trans_lt (h ▸ value_lt_two_zpow_log2)

theorem totalExponent_eq (hm : 0 < m) (hm₀ : 0 < m₀) (h : value m e = value m₀ e₀) :
    totalExponent m e = totalExponent m₀ e₀ := by
  have := log2_add_eq hm hm₀ h
  simp only [totalExponent]
  omega

theorem targetExponent_eq (t : Int) : Format.binary64.targetExponent t = max (t - 53) (-1074) :=
  rfl

namespace Canonical

theorem log2_lt (h : Canonical m e) : m.log2 < 53 :=
  (Nat.log2_lt h.pos.ne').mpr h.lt

/-- Rounding keeps the exponent. -/
theorem targetExponent_eq (h : Canonical m e) :
    Format.binary64.targetExponent (totalExponent m e) = e := by
  have hlt := h.log2_lt
  have hle := h.le
  rw [Binary.targetExponent_eq, totalExponent]
  rcases h.full with hfull | rfl
  · have hlog := (Nat.le_log2 h.pos.ne').mpr hfull
    omega
  · omega

end Canonical

/-- Only zeros are shifted out. -/
theorem shiftRight_exact (m k : Nat) :
    ExtendedMantissa.ofMantissaAndAccuracy (m * 2 ^ k) .exact >>> k =
      ExtendedMantissa.ofMantissaAndAccuracy m .exact := by
  change k.repeat ExtendedMantissa.shiftRightOne _ = _
  induction k generalizing m with
  | zero => rw [pow_zero, mul_one]; rfl
  | succ k ih =>
      rw [pow_succ', ← mul_assoc, Nat.repeat, ih (m * 2)]
      simp [ExtendedMantissa.shiftRightOne, ExtendedMantissa.ofMantissaAndAccuracy]

/-- Shifting a number that can be represented to its exponent drops only zeros. -/
theorem Canonical.shiftToTargetExponent_eq (h : Canonical m₀ e₀)
    (hvalue : value m e = value m₀ e₀) (he : e ≤ e₀) :
    shiftToTargetExponent Format.binary64 m e .exact =
      (ExtendedMantissa.ofMantissaAndAccuracy m₀ .exact, e₀) := by
  have hm := eq_shift_of_value_eq hvalue he
  have hpos : 0 < m := hm ▸ Nat.mul_pos h.pos (Nat.two_pow_pos _)
  rw [shiftToTargetExponent, totalExponent_eq hpos h.pos hvalue, h.targetExponent_eq,
    shiftToExponent, Int.toNat_of_nonneg (by omega), add_sub_cancel, hm, shiftRight_exact]

/-- A number that can be represented is its own rounding, in whatever smaller units it comes. -/
theorem Canonical.roundWithAccuracy_eq (h : Canonical m₀ e₀) (hvalue : value m e = value m₀ e₀)
    (he : e ≤ e₀) (sign : UnpackedFloat.Sign) :
    roundWithAccuracy Format.binary64 sign m e .exact = .finite sign m₀ e₀ h.pos := by
  rw [roundWithAccuracy, h.shiftToTargetExponent_eq hvalue he]
  change (let (final, finalExponent) := shiftToTargetExponent Format.binary64 m₀ e₀ .exact
    if h : final.mantissa = 0 then UnpackedFloat.zero sign
    else UnpackedFloat.finite sign final.mantissa finalExponent (Nat.pos_of_ne_zero h)) = _
  rw [h.shiftToTargetExponent_eq rfl le_rfl]
  exact dif_neg h.pos.ne'

/-- A product that can be represented is exact. -/
theorem Canonical.mul_eq (h : Canonical m₀ e₀) (hm₁ : 0 < m₁) (hm₂ : 0 < m₂)
    (hvalue : value m₁ e₁ * value m₂ e₂ = value m₀ e₀) (he : e₁ + e₂ ≤ e₀) :
    UnpackedFloat.mul Format.binary64 (.finite .positive m₁ e₁ hm₁) (.finite .positive m₂ e₂ hm₂) =
      .finite .positive m₀ e₀ h.pos :=
  h.roundWithAccuracy_eq (value_mul ▸ hvalue) he _

/-- The exponent of a quotient before it is rounded leaves no bit of an exact quotient out. -/
theorem Canonical.targetExponent_le (h : Canonical m₀ e₀) (hm₁ : 0 < m₁)
    (hvalue : value m₁ e₁ = value m₀ e₀ * value m₂ e₂) :
    Format.binary64.targetExponent (totalExponent m₁ e₁ - totalExponent m₂ e₂) ≤ e₀ := by
  have hlt : (2 : ℚ) ^ ((m₁.log2 : Int) + e₁) <
      2 ^ (((m₀.log2 : Int) + e₀ + 1) + ((m₂.log2 : Int) + e₂ + 1)) := by
    refine (two_zpow_log2_le hm₁).trans_lt ?_
    rw [hvalue, zpow_add₀ two_ne_zero]
    refine mul_lt_mul'' value_lt_two_zpow_log2 value_lt_two_zpow_log2 ?_ ?_
    all_goals exact mul_nonneg (Nat.cast_nonneg _) (zpow_nonneg zero_le_two _)
  have hlog := (zpow_lt_zpow_iff_right₀ one_lt_two).mp hlt
  have htarget := h.targetExponent_eq
  simp only [Binary.targetExponent_eq, totalExponent] at htarget ⊢
  omega

/-- A quotient that can be represented is exact. -/
theorem Canonical.div_eq (h : Canonical m₀ e₀) (hm₁ : 0 < m₁) (hm₂ : 0 < m₂)
    (hvalue : value m₁ e₁ = value m₀ e₀ * value m₂ e₂) :
    UnpackedFloat.div Format.binary64 (.finite .positive m₁ e₁ hm₁) (.finite .positive m₂ e₂ hm₂) =
      .finite .positive m₀ e₀ h.pos := by
  have hle := h.targetExponent_le hm₁ hvalue
  generalize hunit : min (e₁ - e₂) (Format.binary64.targetExponent
    (totalExponent m₁ e₁ - totalExponent m₂ e₂)) = unit
  have hunit₀ : unit ≤ e₀ := hunit ▸ (min_le_right _ _).trans hle
  have hunit₁ : unit ≤ e₁ - e₂ := hunit ▸ min_le_left _ _
  -- The dividend in units in which the quotient is a whole number.
  have hdividend : m₁ <<< (e₁ - e₂ - unit).toNat = m₀ * 2 ^ (e₀ - unit).toNat * m₂ := by
    have hshift := value_shift m₁ (e₁ - e₂ - unit).toNat e₁
    rw [Int.toNat_of_nonneg (by omega), hvalue, value_mul] at hshift
    rw [Nat.shiftLeft_eq, eq_shift_of_value_eq hshift (by omega), mul_right_comm]
    congr 3
    omega
  have hquotient := value_shift m₀ (e₀ - unit).toNat e₀
  rw [Int.toNat_of_nonneg (by omega), sub_sub_cancel] at hquotient
  have hcore : divCore Format.binary64 m₁ e₁ m₂ e₂ =
      (m₀ * 2 ^ (e₀ - unit).toNat, unit, .exact) := by
    simp only [divCore, hunit, hdividend, Nat.mul_div_cancel _ hm₂, Nat.mul_mod_left,
      accuracyOfFraction, if_true]
  rw [UnpackedFloat.div, hcore]
  exact h.roundWithAccuracy_eq hquotient hunit₀ _

/-- A whole number that can be represented is not rounded. -/
theorem Canonical.normalize_eq (h : Canonical m₀ e₀) (hvalue : value m 0 = value m₀ e₀) :
    normalize Format.binary64 m 0 .positive = .finite .positive m₀ e₀ h.pos := by
  have hm : 0 < m := by
    refine Nat.pos_of_ne_zero fun hm => ?_
    rw [hm, value, Nat.cast_zero, zero_mul] at hvalue
    exact (mul_ne_zero (Nat.cast_ne_zero.mpr h.pos.ne') (zpow_ne_zero e₀ two_ne_zero)) hvalue.symm
  have hshift := value_shift m (-e₀).toNat 0
  rw [hvalue] at hshift
  have htarget := h.targetExponent_eq
  rw [← totalExponent_eq hm h.pos hvalue] at htarget
  unfold UnpackedFloat.normalize
  rw [Int.compare_eq_gt.mpr (by omega)]
  simp only [Int.toNat_natCast, UnpackedFloat.round, htarget, decreaseExponent,
    Nat.shiftLeft_eq, zero_sub] at hshift ⊢
  exact h.roundWithAccuracy_eq hshift (by omega) _

/-! ## Packing -/

theorem toNat_hidden (mantissa : BitVec 52) :
    (1#1 ++ mantissa).toNat = 2 ^ 52 + mantissa.toNat := by
  rw [BitVec.toNat_append, ← Nat.shiftLeft_add_eq_or_of_lt mantissa.isLt]
  rfl

theorem unpack_packComponents (sign : UnpackedFloat.Sign) (exponent : BitVec 11)
    (mantissa : BitVec 52) (hfinite : exponent ≠ -1#_) :
    UnpackedFloat.unpack Format.binary64 (packComponents Format.binary64 sign exponent mantissa) =
      if exponent = 0#_ then
        if h : mantissa = 0#_ then .zero sign
        else .finite sign mantissa.toNat (-1074)
          (by simpa [BitVec.toNat_pos, BitVec.pos_iff_ne_zero])
      else .finite sign (1#1 ++ mantissa).toNat (exponent.toNat - 1075)
        (by rw [toNat_hidden]; positivity) := by
  unfold UnpackedFloat.unpack
  simp only [unpackMantissa_packComponents, unpackExponent_packComponents,
    unpackSign_packComponents, UnpackedFloat.Sign.ofBitVec_toBitVec, hfinite, if_false]
  split
  · next hzero =>
    subst hzero
    rfl
  · rfl

theorem Canonical.unpack_pack (h : Canonical m e) (he : e ≤ 971) (sign : UnpackedFloat.Sign) :
    (Float.Model.pack (.finite sign m e h.pos)).unpack = .finite sign m e h.pos := by
  have hle := h.le
  change UnpackedFloat.unpack Format.binary64
    (UnpackedFloat.pack Format.binary64 (.finite sign m e h.pos)) = _
  have hbias : e + (Format.binary64.exponentBias : Int) +
      (Format.binary64.mantissaBitsWithoutImplicit : Int) = e + 1075 := by
    change e + 1023 + 52 = _
    omega
  have hexponent : (BitVec.ofNat 11 (e + 1075).toNat).toNat = (e + 1075).toNat :=
    Nat.mod_eq_of_lt (by omega)
  unfold UnpackedFloat.pack
  simp only [hbias]
  rw [if_neg (by change ¬2048 ≤ _; omega)]
  rcases Nat.lt_or_ge m (2 ^ 52) with hshort | hfull
  · -- The least exponent is stored as zero.
    obtain rfl : e = -1074 := h.full.resolve_left (by omega)
    have hlog : m.log2 < 52 := (Nat.log2_lt h.pos.ne').mpr hshort
    have hmantissa : (BitVec.ofNat 52 m).toNat = m := Nat.mod_eq_of_lt hshort
    have hne : BitVec.ofNat 52 m ≠ 0#52 := fun hzero =>
      h.pos.ne' (hmantissa.symm.trans (congrArg BitVec.toNat hzero))
    rw [if_neg (by change ¬m.log2 + 1 = 53; omega),
      unpack_packComponents sign 0#11 (BitVec.ofNat 52 m) (by decide), if_pos rfl, dif_neg hne]
    simp only [hmantissa]
  · have hlog : m.log2 = 52 := (Nat.log2_eq_iff h.pos.ne').mpr ⟨hfull, h.lt⟩
    have hmantissa : (1#1 ++ BitVec.ofNat 52 m).toNat = m := by
      have hlt := h.lt
      rw [toNat_hidden, BitVec.toNat_ofNat]
      omega
    have hzero : BitVec.ofNat 11 (e + 1075).toNat ≠ 0#11 := fun hzero => by
      have := hexponent.symm.trans (congrArg BitVec.toNat hzero)
      rw [BitVec.toNat_ofNat, Nat.zero_mod] at this
      omega
    have hones : BitVec.ofNat 11 (e + 1075).toNat ≠ -1#11 := fun hones => by
      have : (e + 1075).toNat = 2047 := hexponent.symm.trans (congrArg BitVec.toNat hones)
      omega
    rw [if_pos (by change m.log2 + 1 = 53; omega),
      unpack_packComponents sign (BitVec.ofNat 11 (e + 1075).toNat) (BitVec.ofNat 52 m) hones,
      if_neg hzero]
    simp only [hmantissa, hexponent, UnpackedFloat.finite.injEq, true_and]
    omega

/-! ## Decimals -/

/-- The floating-point number with a given significand and exponent. -/
def number (m : Nat) (e : Int) (h : 0 < m) : Float :=
  .ofModel (Float.Model.pack (.finite .positive m e h))

/-- A short whole number with zeros behind it can be represented. -/
theorem exists_canonical {n k : Nat} (hn : 0 < n) (hlt : n < 2 ^ 53) (hk : k ≤ 900) :
    ∃ m e, Canonical m e ∧ e ≤ 971 ∧ value n k = value m e := by
  have hlog : n.log2 < 53 := (Nat.log2_lt hn.ne').mpr hlt
  have hvalue := value_shift n (52 - n.log2) k
  have hpos : 0 < n * 2 ^ (52 - n.log2) := Nat.mul_pos hn (Nat.two_pow_pos _)
  have hfull : (n * 2 ^ (52 - n.log2)).log2 = 52 := by
    have := log2_add_eq hpos hn hvalue
    omega
  obtain ⟨hle, hlt⟩ := (Nat.log2_eq_iff hpos.ne').mp hfull
  exact ⟨_, _, ⟨hpos, hlt, by omega, .inl hle⟩, by omega, hvalue.symm⟩

theorem Canonical.ofNat_eq (h : Canonical m₀ e₀) (hvalue : value m 0 = value m₀ e₀) :
    Float.ofModel (.ofNat m) = number m₀ e₀ h.pos :=
  congrArg (fun u => Float.ofModel (Float.Model.pack u)) (h.normalize_eq hvalue)

theorem toFloat_toUInt64 (hlt : m < 2 ^ 53) : m.toUInt64.toFloat = .ofModel (.ofNat m) := by
  have hword : m.toUInt64.toNat = m := Nat.mod_eq_of_lt (by omega)
  change Float.ofModel (.ofNat m.toUInt64.toNat) = _
  rw [hword]

/-- The stored powers of ten are exact. -/
theorem powerOfTen_eq : ∀ k : Fin 23,
    Float.exactlyRepresentablePowersOfTen[k] = .ofModel (.ofNat (10 ^ k.val)) := by
  decide +kernel

theorem value_ten_pow (k : Nat) : value (10 ^ k) 0 = value (5 ^ k) k := by
  rw [value, value, zpow_zero, mul_one, zpow_natCast]
  push_cast
  rw [← mul_pow]
  norm_num

theorem exists_powerOfTen {k : Nat} (hk : k ≤ 22) : ∃ m e, ∃ h : Canonical m e, e ≤ 971 ∧
    value (10 ^ k) 0 = value m e ∧
      ∀ hlt, getElem Float.exactlyRepresentablePowersOfTen k hlt = number m e h.pos := by
  have hlt : 5 ^ k < 2 ^ 53 := (Nat.pow_le_pow_right (by decide) hk).trans_lt (by decide)
  obtain ⟨m, e, h, he, hvalue⟩ := exists_canonical (Nat.pow_pos (by decide)) hlt
    (hk.trans (by decide))
  rw [← value_ten_pow] at hvalue
  exact ⟨m, e, h, he, hvalue, fun _ =>
    (powerOfTen_eq ⟨k, Nat.lt_succ_of_le hk⟩).trans (h.ofNat_eq hvalue)⟩

namespace Canonical

variable (h : Canonical m₀ e₀) (h₁ : Canonical m₁ e₁) (h₂ : Canonical m₂ e₂)
include h

theorem number_div (he₁ : e₁ ≤ 971) (he₂ : e₂ ≤ 971)
    (hvalue : value m₁ e₁ = value m₀ e₀ * value m₂ e₂) :
    number m₁ e₁ h₁.pos / number m₂ e₂ h₂.pos = number m₀ e₀ h.pos := by
  change Float.ofModel (Float.Model.pack (UnpackedFloat.div _ (Float.Model.unpack _)
    (Float.Model.unpack _))) = _
  rw [number, number, h₁.unpack_pack he₁, h₂.unpack_pack he₂, h.div_eq _ _ hvalue]
  rfl

theorem number_mul (he₁ : e₁ ≤ 971) (he₂ : e₂ ≤ 971)
    (hvalue : value m₁ e₁ * value m₂ e₂ = value m₀ e₀) (he : e₁ + e₂ ≤ e₀) :
    number m₁ e₁ h₁.pos * number m₂ e₂ h₂.pos = number m₀ e₀ h.pos := by
  change Float.ofModel (Float.Model.pack (UnpackedFloat.mul _ (Float.Model.unpack _)
    (Float.Model.unpack _))) = _
  rw [number, number, h₁.unpack_pack he₁, h₂.unpack_pack he₂, h.mul_eq _ _ hvalue he]
  rfl

/-- A decimal fraction that is a floating-point number reads as that number. -/
theorem ofScientific_eq_div {k : Nat} (hm : 0 < m) (hk : k < 2048)
    (hvalue : value m 0 = value m₀ e₀ * value (10 ^ (k + 1)) 0) :
    Float.ofScientific m true (k + 1) = number m₀ e₀ h.pos := by
  unfold Float.ofScientific
  split
  · next hfast =>
    obtain ⟨m₁, e₁, h₁, he₁, hvalue₁⟩ := exists_canonical (k := 0) hm hfast.1 (by decide)
    obtain ⟨m₂, e₂, h₂, he₂, hvalue₂, hpower⟩ := exists_powerOfTen hfast.2
    rw [Nat.cast_zero] at hvalue₁
    rw [hpower, toFloat_toUInt64 hfast.1, h₁.ofNat_eq hvalue₁]
    rw [hvalue₁, hvalue₂] at hvalue
    exact h.number_div h₁ h₂ he₁ he₂ hvalue
  · have hexponent : Int.negOfNat (k + 1) = -((k : Int) + 1) := rfl
    simp only [if_true, hexponent, Float.Model.ofScientific, UnpackedFloat.ofScientific]
    rw [dif_neg hm.ne', if_neg (by omega), if_neg (by omega), if_neg (by omega)]
    have hpower : (-(-((k : Int) + 1))).toNat = k + 1 := by omega
    simp only [hpower]
    rw [h.div_eq _ _ hvalue]
    rfl

include h₁ in
/-- A number has one canonical exponent. -/
theorem exponent_eq (hvalue : value m₁ e₁ = value m₀ e₀) : e₁ = e₀ := by
  rw [← h₁.targetExponent_eq, totalExponent_eq h₁.pos h.pos hvalue, h.targetExponent_eq]

/-- A whole number that is a floating-point number reads as that number. -/
theorem ofScientific_eq_nat (hm : 0 < m) (hvalue : value m 0 = value m₀ e₀) :
    Float.ofScientific m false 0 = number m₀ e₀ h.pos := by
  unfold Float.ofScientific
  split
  · next hfast =>
    obtain ⟨m₁, e₁, h₁, he₁, hvalue₁⟩ := exists_canonical (k := 0) hm hfast.1 (by decide)
    obtain ⟨m₂, e₂, h₂, he₂, hvalue₂, hpower⟩ := exists_powerOfTen hfast.2
    rw [Nat.cast_zero] at hvalue₁
    simp only [Bool.false_eq_true, if_false]
    rw [hpower, toFloat_toUInt64 hfast.1, h₁.ofNat_eq hvalue₁]
    have hone : value (10 ^ 0) 0 = 1 := by norm_num [value]
    have hsmall : e₂ ≤ 0 := by
      have hlog := log2_add_eq (by decide) h₂.pos hvalue₂
      have : Nat.log2 (10 ^ 0) = 0 := rfl
      omega
    refine h.number_mul h₁ h₂ he₁ he₂ ?_ ?_
    · rw [← hvalue₁, ← hvalue₂, hone, mul_one, hvalue]
    · rw [← h.exponent_eq h₁ (hvalue₁.symm.trans hvalue)]
      omega
  · have hexponent : Int.ofNat 0 = 0 := rfl
    simp only [Bool.false_eq_true, if_false, hexponent, Float.Model.ofScientific,
      UnpackedFloat.ofScientific]
    rw [dif_neg hm.ne', if_neg (by decide), if_neg (by omega), if_pos (by decide)]
    have hlarge : -53 ≤ e₀ := by
      have hlog := log2_add_eq hm h.pos hvalue
      have := h.log2_lt
      omega
    have hone : value (10 ^ (0 : Int).toNat) 0 = 1 := by norm_num [value]
    have hbits : value (m <<< Format.binary64.mantissaBits)
        (-(Format.binary64.mantissaBits : Int)) = value m 0 := by
      rw [Nat.shiftLeft_eq, ← zero_sub]
      exact value_shift m _ 0
    rw [h.mul_eq _ _ (by rw [hbits, hone, mul_one, hvalue]) hlarge]
    rfl

end Canonical

/-! ## Numbers that are too large -/

theorem mantissa_shiftRight (em : ExtendedMantissa) (k : Nat) :
    (em >>> k).mantissa = em.mantissa / 2 ^ k := by
  change (k.repeat ExtendedMantissa.shiftRightOne em).mantissa = _
  induction k with
  | zero => rw [pow_zero, Nat.div_one]; rfl
  | succ k ih =>
      rw [Nat.repeat, pow_succ, ← Nat.div_div_eq_div_mul, ← ih]
      rfl

/-- Shifting to the target exponent does not lower the exponent, and leaves something of a number
whose exponent is not below the least one. -/
theorem shiftToTargetExponent_of_le (hm : 0 < m) (he : -1074 ≤ e) :
    0 < (shiftToTargetExponent Format.binary64 m e .exact).1.mantissa ∧
      e ≤ (shiftToTargetExponent Format.binary64 m e .exact).2 ∧
      (m.log2 : Int) + e - 52 ≤ (shiftToTargetExponent Format.binary64 m e .exact).2 := by
  rw [shiftToTargetExponent, shiftToExponent, targetExponent_eq, totalExponent]
  simp only [mantissa_shiftRight]
  have hshift : (max ((m.log2 : Int) + 1 + e - 53) (-1074) - e).toNat ≤ m.log2 := by omega
  refine ⟨?_, by omega, by omega⟩
  exact Nat.div_pos ((Nat.pow_le_pow_right (by decide) hshift).trans
    (Nat.log2_self_le hm.ne')) (Nat.two_pow_pos _)

theorem le_roundedMantissa (em : ExtendedMantissa) : em.mantissa ≤ em.roundedMantissa := by
  obtain ⟨m, round, sticky⟩ := em
  cases round <;> cases sticky <;>
    simp [ExtendedMantissa.roundedMantissa, ExtendedMantissa.accuracy,
      Accuracy.roundToNearestEven]

/-- There is no room for an exponent that is too large. -/
theorem pack_of_large (hm : 0 < m) (he : 971 < e) :
    Float.Model.pack (.finite .positive m e hm) = Float.Model.pack (.infinity .positive) := by
  have hbias : 2 ^ Format.binary64.exponentBits ≤ (e + (Format.binary64.exponentBias : Int) +
      (Format.binary64.mantissaBitsWithoutImplicit : Int)).toNat + 1 := by
    change 2048 ≤ (e + 1023 + 52).toNat + 1
    omega
  have hpack : UnpackedFloat.pack Format.binary64 (.finite .positive m e hm) =
      UnpackedFloat.pack Format.binary64 (.infinity .positive) :=
    if_pos hbias
  simp only [Float.Model.pack, hpack]

/-- A number of `2 ^ 1024` or more is packed as infinity. -/
theorem pack_roundWithAccuracy (hm : 0 < m) (he : -1074 ≤ e) (hlarge : 1024 ≤ (m.log2 : Int) + e) :
    Float.Model.pack (roundWithAccuracy Format.binary64 .positive m e .exact) =
      Float.Model.pack (.infinity .positive) := by
  unfold roundWithAccuracy
  obtain ⟨hm₁, hle₁, hlog₁⟩ := shiftToTargetExponent_of_le hm he
  generalize shiftToTargetExponent Format.binary64 m e .exact = first at hm₁ hle₁ hlog₁ ⊢
  obtain ⟨em, e₁⟩ := first
  simp only at hm₁ hle₁ hlog₁ ⊢
  obtain ⟨hm₂, hle₂, -⟩ := shiftToTargetExponent_of_le (e := e₁)
    (hm₁.trans_le (le_roundedMantissa em)) (by omega)
  generalize shiftToTargetExponent Format.binary64 em.roundedMantissa e₁ .exact = second
    at hm₂ hle₂ ⊢
  obtain ⟨em', e₂⟩ := second
  simp only at hm₂ hle₂ ⊢
  rw [dif_neg hm₂.ne']
  exact pack_of_large hm₂ (by omega)

theorem ofScientific_of_large (hlarge : 1024 ≤ m.log2) :
    Float.ofScientific m false 0 = Decimal.infinity := by
  have hm : m ≠ 0 := fun hm => by
    rw [hm] at hlarge
    exact absurd hlarge (by decide)
  have hfast : ¬m < 2 ^ 53 := fun hlt => by
    have := (Nat.log2_lt hm).mpr hlt
    omega
  have hexponent : Int.ofNat 0 = 0 := rfl
  rw [Float.ofScientific, dif_neg fun h => hfast h.1]
  simp only [Bool.false_eq_true, if_false, hexponent, Float.Model.ofScientific,
      UnpackedFloat.ofScientific]
  rw [dif_neg hm, if_neg (by decide), if_neg (by omega), if_pos (by decide)]
  have hpos : 0 < m * 2 ^ 53 := Nat.mul_pos (Nat.pos_of_ne_zero hm) (Nat.two_pow_pos _)
  have hlog := log2_add_eq hpos (Nat.pos_of_ne_zero hm) (value_shift m 53 0)
  have hshift : m <<< Format.binary64.mantissaBits * 10 ^ (0 : Int).toNat = m * 2 ^ 53 := by
    rw [Nat.shiftLeft_eq, Int.toNat_zero, pow_zero, mul_one]
    rfl
  change Float.ofModel (Float.Model.pack (roundWithAccuracy Format.binary64 .positive
    (m <<< Format.binary64.mantissaBits * 10 ^ (0 : Int).toNat) (-53 + 0) .exact)) = _
  rw [hshift, pack_roundWithAccuracy hpos (by decide) (by omega)]
  rfl

end LiveSheet.Binary
