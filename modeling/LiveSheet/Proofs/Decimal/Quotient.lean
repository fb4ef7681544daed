import LiveSheet.Proofs.Decimal.Nearest

/-! # Quotients

A quotient of two numbers is their exact quotient, rounded once. So a quotient by a positive number
does not fall when its dividend grows, whether that is finite or not, and neither does its whole
part as a word. -/

namespace LiveSheet.Binary

open Float.Model Float.Model.UnpackedFloat

variable {x y z : Float} {r : ℚ} {m m₁ m₂ : Nat} {e e₁ e₂ : Int}

/-! ## Quotients -/

/-- A quotient is cut off far enough behind its last place. -/
theorem targetExponent_le_lastPlace (hm₁ : 0 < m₁) (hm₂ : 0 < m₂) (e₁ e₂ : Int) :
    Format.binary64.targetExponent (totalExponent m₁ e₁ - totalExponent m₂ e₂) ≤
      lastPlace (value m₁ e₁ / value m₂ e₂) := by
  have hpos : 0 < value m₂ e₂ := value_pos hm₂
  have hlog : (m₁.log2 + e₁ : Int) - (m₂.log2 + e₂ + 1) ≤
      Int.log 2 (value m₁ e₁ / value m₂ e₂) := by
    rw [← Int.zpow_le_iff_le_log one_lt_two (div_pos (value_pos hm₁) hpos), le_div_iff₀ hpos,
      Nat.cast_ofNat]
    calc (2 : ℚ) ^ ((m₁.log2 + e₁ : Int) - (m₂.log2 + e₂ + 1)) * value m₂ e₂
        ≤ 2 ^ ((m₁.log2 + e₁ : Int) - (m₂.log2 + e₂ + 1)) * 2 ^ (m₂.log2 + e₂ + 1 : Int) := by
          gcongr
          exact value_lt_two_zpow_log2.le
      _ = 2 ^ (m₁.log2 + e₁ : Int) := by rw [← zpow_add₀ two_ne_zero, sub_add_cancel]
      _ ≤ value m₁ e₁ := two_zpow_log2_le hm₁
  rw [targetExponent_eq, totalExponent, totalExponent, lastPlace]
  omega

/-- The quotient of two numbers is rounded once. -/
theorem amounts_div (hm₁ : 0 < m₁) (hm₂ : 0 < m₂) (e₁ e₂ : Int) :
    ∃ r, Rounds (value m₁ e₁ / value m₂ e₂) r ∧
      Amounts (UnpackedFloat.div Format.binary64 (.finite .positive m₁ e₁ hm₁)
        (.finite .positive m₂ e₂ hm₂)) r := by
  have hle := targetExponent_le_lastPlace hm₁ hm₂ e₁ e₂
  rw [UnpackedFloat.div, divCore]
  generalize hunit : min (e₁ - e₂) (Format.binary64.targetExponent
    (totalExponent m₁ e₁ - totalExponent m₂ e₂)) = unit
  have hunit₀ : unit ≤ e₁ - e₂ := hunit ▸ min_le_left _ _
  refine amounts_roundWithAccuracy (div_pos (value_pos hm₁) (value_pos hm₂)) ?_
    (hunit ▸ (min_le_right _ _).trans hle)
  -- The dividend in units of which the quotient is cut off.
  have hquotient : value m₁ e₁ / value m₂ e₂ / 2 ^ unit =
      (m₁ <<< (e₁ - e₂ - unit).toNat : Nat) / (m₂ : ℚ) := by
    have hshift := value_shift m₁ (e₁ - e₂ - unit).toNat e₁
    have hexponent : e₁ - (e₁ - e₂ - unit) = e₂ + unit := by omega
    have hne : (m₂ : ℚ) ≠ 0 := Nat.cast_ne_zero.mpr hm₂.ne'
    rw [Int.toNat_of_nonneg (by omega), hexponent, ← Nat.shiftLeft_eq] at hshift
    rw [← hshift, value, value, zpow_add₀ two_ne_zero]
    field_simp
  rw [hquotient]
  exact truncates_fraction _ hm₂

/-! ## Whole parts -/

/-- The greatest word of 64 bits. -/
def maxWord : Nat := 0xffffffffffffffff

theorem toNat_ofNatClamp (n : Nat) : (UInt64.ofNatClamp n).toNat = min n maxWord := by
  unfold UInt64.ofNatClamp
  split
  · next hlt => exact UInt64.toNat_ofNatLT.trans (Nat.min_eq_left (Nat.le_of_lt_succ hlt)).symm
  · next hge => exact (Nat.min_eq_right (Nat.le_of_succ_le (Nat.not_lt.mp hge))).symm

theorem roundToInt_eq (m : Nat) (e : Int) : roundToInt .positive m e = ⌊value m e⌋₊ := by
  have hround : roundToInt .positive m e =
      ((m <<< (e - 0).toNat / 2 ^ (0 - (e - (e - 0).toNat)).toNat : Nat) : Int) :=
    congrArg Nat.cast (mantissa_shiftRight _ _)
  rw [hround, Nat.shiftLeft_eq, Nat.cast_inj]
  rcases Int.eq_nat_or_neg e with ⟨k, rfl | rfl⟩
  · have hvalue := value_shift m k k
    rw [sub_self, value, zpow_zero, mul_one] at hvalue
    rw [← hvalue, Nat.floor_natCast]
    simp
  · have hvalue : value m (-k) = (m : ℚ) / (2 ^ k : Nat) := by
      rw [value, zpow_neg, zpow_natCast, div_eq_mul_inv, Nat.cast_pow, Nat.cast_ofNat]
    rw [hvalue, Nat.floor_div_eq_div]
    simp

/-- The whole part of a number that has been rounded, as far as words reach. -/
theorem Amounts.toNat_toUInt64 {u : UnpackedFloat} (h : Amounts u r) :
    (Float.ofModel (Float.Model.pack u)).toUInt64.toNat = min ⌊r⌋₊ maxWord := by
  rcases h with ⟨rfl, rfl⟩ | ⟨m, e, hcanonical, rfl, rfl⟩
  · rfl
  · by_cases he : e ≤ 971
    · change (UInt64.ofNatClamp (UnpackedFloat.toInt 0 _ (Float.Model.unpack
        (Float.Model.pack _))).toNat).toNat = _
      rw [hcanonical.unpack_pack he, toNat_ofNatClamp, UnpackedFloat.toInt, roundToInt_eq,
        Int.toNat_natCast]
    · -- The number is packed as infinity, but it is no word in any case.
      have hlarge : maxWord ≤ ⌊value m e⌋₊ := by
        refine Nat.le_floor ?_
        have hfull : 2 ^ 52 ≤ m := hcanonical.full.resolve_right (by omega)
        calc (maxWord : ℚ) ≤ ((2 ^ 52 : Nat) : ℚ) * 2 ^ (12 : Int) := by norm_num [maxWord]
          _ ≤ value m e := by
            unfold value
            gcongr
            · exact one_le_two
            · omega
      rw [pack_of_large hcanonical.pos (not_le.mp he), Nat.min_eq_right hlarge]
      rfl

/-! ## The order of quotients -/

theorem Canonical.value_lt_of_exponent_lt (h₁ : Canonical m₁ e₁) (h₂ : Canonical m₂ e₂)
    (he : e₁ < e₂) : value m₁ e₁ < value m₂ e₂ := by
  have hfull : 2 ^ 52 ≤ m₂ := h₂.full.resolve_right (by have := h₁.le; omega)
  have hlt : m₁ < 2 ^ 53 := h₁.lt
  calc value m₁ e₁ < value (2 ^ 53) e₁ := by
        unfold value
        gcongr
    _ = value (2 ^ 52) (e₁ + 1) := value_carry e₁
    _ ≤ value m₂ e₂ := by
        unfold value
        gcongr
        · exact one_le_two
        · exact he

theorem lt_iff : x < y ↔ x.toModel.unpack.lt y.toModel.unpack = true :=
  decide_eq_true_iff

theorem unpack_number (h : Canonical m e) (he : e ≤ 971) :
    (number m e h.pos).toModel.unpack = .finite .positive m e h.pos :=
  h.unpack_pack he .positive

theorem number_lt_iff (h₁ : Canonical m₁ e₁) (h₂ : Canonical m₂ e₂) (he₁ : e₁ ≤ 971)
    (he₂ : e₂ ≤ 971) : number m₁ e₁ h₁.pos < number m₂ e₂ h₂.pos ↔
      e₁ < e₂ ∨ e₁ = e₂ ∧ m₁ < m₂ := by
  rw [lt_iff, unpack_number h₁ he₁, unpack_number h₂ he₂]
  simp only [UnpackedFloat.lt, UnpackedFloat.compare, beq_iff_eq, Option.some.injEq,
    Ordering.then_eq_lt, compare_lt_iff_lt, compare_eq_iff_eq]

/-- Numbers are compared by their exponents first. -/
theorem Canonical.value_le_of_not_lt (h₁ : Canonical m₁ e₁) (h₂ : Canonical m₂ e₂)
    (he₁ : e₁ ≤ 971) (he₂ : e₂ ≤ 971) (h : ¬number m₂ e₂ h₂.pos < number m₁ e₁ h₁.pos) :
    value m₁ e₁ ≤ value m₂ e₂ := by
  rw [number_lt_iff h₂ h₁ he₂ he₁] at h
  rcases lt_trichotomy e₁ e₂ with hlt | rfl | hlt
  · exact (h₁.value_lt_of_exponent_lt h₂ hlt).le
  · have hle : m₁ ≤ m₂ := not_lt.mp fun hlt => h (.inr ⟨rfl, hlt⟩)
    unfold value
    gcongr
  · exact (h (.inl hlt)).elim

theorem pos_cases (hx : 0 < x) :
    x = Decimal.infinity ∨ ∃ m e, ∃ h : Canonical m e, e ≤ 971 ∧ x = number m e h.pos := by
  have hpack : Float.ofModel (Float.Model.pack x.toModel.unpack) = x := Float.ofBits_toBits x
  have hzero : (0 : Float).toModel.unpack = .zero .positive := rfl
  rw [lt_iff, hzero] at hx
  cases hunpack : x.toModel.unpack with
  | notANumber => rw [hunpack] at hx; cases hx
  | infinity sign =>
      rw [hunpack] at hx hpack
      cases sign with
      | negative => cases hx
      | positive => exact .inl hpack.symm
  | zero sign => rw [hunpack] at hx; cases hx
  | finite sign m e hm =>
      have hfinite : x.isFinite = true := by
        change x.toModel.unpack.isFinite = true
        rw [hunpack]
        rfl
      rcases Decimal.unpack_of_isFinite hfinite with ⟨-, hzero⟩ | ⟨h, he, hnumber⟩
      · rw [hzero] at hunpack
        cases hunpack
      · rw [hnumber] at hx hpack
        cases hsign : Decimal.signOf x with
        | negative => rw [hsign] at hx; cases hx
        | positive =>
          rw [hsign] at hpack
          exact .inr ⟨_, _, h, he, hpack.symm⟩

theorem toUInt64_div_eq (x z : Float) :
    (x / z).toUInt64 = UnpackedFloat.toUInt64 (Float.Model.pack
      (UnpackedFloat.div Format.binary64 x.toModel.unpack z.toModel.unpack)).unpack :=
  rfl

theorem unpack_zero : (0 : Float).toModel.unpack = .zero .positive :=
  rfl

theorem unpack_infinity : Decimal.infinity.toModel.unpack = .infinity .positive :=
  rfl

theorem not_le_zero_of_pos (hx : 0 < x) : ¬x ≤ 0 := by
  have hle : x ≤ 0 ↔ x.toModel.unpack.le (.zero .positive) = true := decide_eq_true_iff
  rw [hle]
  rcases pos_cases hx with rfl | ⟨m, e, h, he, rfl⟩
  · rw [unpack_infinity]
    decide
  · rw [unpack_number h he, UnpackedFloat.le, UnpackedFloat.compare]
    decide

/-- A quotient by infinity is zero or no number. -/
theorem toUInt64_div_infinity (hx : x = 0 ∨ 0 < x) : (x / Decimal.infinity).toUInt64 = 0 := by
  rcases hx with rfl | hx
  · rfl
  · rcases pos_cases hx with rfl | ⟨m, e, h, he, rfl⟩
    · rfl
    · rw [toUInt64_div_eq, unpack_number h he, unpack_infinity, UnpackedFloat.div]
      rfl

theorem toUInt64_zero_div (h : Canonical m e) (he : e ≤ 971) :
    (0 / number m e h.pos).toUInt64 = 0 := by
  rw [toUInt64_div_eq, unpack_number h he, unpack_zero, UnpackedFloat.div]
  rfl

theorem toNat_toUInt64_infinity_div (h : Canonical m e) (he : e ≤ 971) :
    (Decimal.infinity / number m e h.pos).toUInt64.toNat = maxWord := by
  rw [toUInt64_div_eq, unpack_number h he, unpack_infinity, UnpackedFloat.div]
  rfl

theorem number_lt_infinity (h : Canonical m e) (he : e ≤ 971) :
    number m e h.pos < Decimal.infinity := by
  rw [lt_iff, unpack_number h he, unpack_infinity]
  rfl

/-- The whole part of a quotient of two numbers. -/
theorem toNat_toUInt64_div (h₁ : Canonical m₁ e₁) (h₂ : Canonical m₂ e₂) (he₁ : e₁ ≤ 971)
    (he₂ : e₂ ≤ 971) : ∃ r, Rounds (value m₁ e₁ / value m₂ e₂) r ∧
      (number m₁ e₁ h₁.pos / number m₂ e₂ h₂.pos).toUInt64.toNat = min ⌊r⌋₊ maxWord := by
  obtain ⟨r, hr, hamounts⟩ := amounts_div h₁.pos h₂.pos e₁ e₂
  refine ⟨r, hr, ?_⟩
  rw [← hamounts.toNat_toUInt64, toUInt64_div_eq, unpack_number h₁ he₁, unpack_number h₂ he₂]
  rfl

/-- The whole part of a quotient by a positive number does not fall when the dividend grows, whether
the numbers are finite or not. -/
theorem toUInt64_div_mono (hz : 0 < z) (hx : x = 0 ∨ 0 < x) (hy : y = 0 ∨ 0 < y)
    (hxy : ¬y < x) : (x / z).toUInt64.toNat ≤ (y / z).toUInt64.toNat := by
  rcases pos_cases hz with rfl | ⟨m, e, h, he, rfl⟩
  · rw [toUInt64_div_infinity hx]
    exact Nat.zero_le _
  rcases hx with rfl | hx
  · rw [toUInt64_zero_div h he]
    exact Nat.zero_le _
  have hy : 0 < y := hy.resolve_left fun hzero => hxy (hzero ▸ hx)
  rcases pos_cases hy with rfl | ⟨m₂, e₂, h₂, he₂, rfl⟩
  · rw [toNat_toUInt64_infinity_div h he]
    exact Nat.le_of_lt_succ (UInt64.toNat_lt _)
  rcases pos_cases hx with rfl | ⟨m₁, e₁, h₁, he₁, rfl⟩
  · exact (hxy (number_lt_infinity h₂ he₂)).elim
  obtain ⟨r₁, hr₁, heq₁⟩ := toNat_toUInt64_div h₁ h he₁ he
  obtain ⟨r₂, hr₂, heq₂⟩ := toNat_toUInt64_div h₂ h he₂ he
  have hle := div_le_div_of_nonneg_right (h₁.value_le_of_not_lt h₂ he₁ he₂ hxy)
    (value_pos (e := e) h.pos).le
  have hr := hr₁.mono hr₂ (div_pos (value_pos h₁.pos) (value_pos h.pos)) hle
  rw [heq₁, heq₂]
  exact min_le_min_right _ (Nat.floor_le_floor hr)

end LiveSheet.Binary
