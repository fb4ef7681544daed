import LiveSheet.Proofs.Decimal.Exact

/-! # Rounding to the nearest number

An exact number is cut off behind its last place, with two bits that tell where it lies between
the two multiples of that place. They are enough to round it to the nearest one, and that keeps the
order of numbers, although the last place depends on the number. -/

namespace LiveSheet.Binary

open Float.Model Float.Model.UnpackedFloat

/-! ## Rounding to whole numbers -/

/-- The whole number nearest to `x`, and the even one of two. -/
structure Nearest (x : ℚ) (n : Nat) : Prop where
  le_add : x ≤ n + 1 / 2
  sub_le : n - 1 / 2 ≤ x
  even : x = n + 1 / 2 ∨ x = n - 1 / 2 → n % 2 = 0

variable {x y : ℚ} {n n₁ n₂ : Nat}

theorem nearest_of_lt (n : Nat) (hge : n - 1 / 2 < x) (hlt : x < n + 1 / 2) : Nearest x n where
  le_add := hlt.le
  sub_le := hge.le
  even h := by rcases h with rfl | rfl <;> exact (lt_irrefl _ ‹_›).elim

theorem nearest_self (n : Nat) : Nearest n n :=
  nearest_of_lt n (by linarith) (by linarith)

/-- Half-way between two whole numbers the even one is taken. -/
theorem nearest_half (n : Nat) (hx : x = n + 1 / 2) : Nearest x (n + n % 2) := by
  have hge : (0 : ℚ) ≤ (n % 2 : Nat) := Nat.cast_nonneg _
  have hle : ((n % 2 : Nat) : ℚ) ≤ 1 := by exact_mod_cast Nat.le_of_lt_succ (Nat.mod_lt n two_pos)
  refine ⟨?_, ?_, fun _ => by omega⟩ <;> push_cast <;> linarith

/-- Between two neighbours only the number half-way could be rounded either way, and both cannot be
even. -/
theorem Nearest.mono (h₁ : Nearest x n₁) (h₂ : Nearest y n₂) (hxy : x ≤ y) : n₁ ≤ n₂ := by
  by_contra hlt
  have hnext : ((n₂ + 1 : Nat) : ℚ) ≤ n₁ := by exact_mod_cast Nat.not_le.mp hlt
  have hle₁ := h₁.sub_le
  have hle₂ := h₂.le_add
  push_cast at hnext
  have heq : (n₁ : ℚ) = n₂ + 1 := by linarith
  have heven₁ := h₁.even (.inr (by linarith))
  have heven₂ := h₂.even (.inl (by linarith))
  have heq' : n₁ = n₂ + 1 := by exact_mod_cast heq
  omega

/-! ## Significands that have been cut off -/

/-- The bits of a number up to its unit, with one bit for the half of the unit and one that tells
whether anything is left behind it. -/
def Truncates (em : ExtendedMantissa) (x : ℚ) : Prop :=
  ∃ left : ℚ, 0 ≤ left ∧ left < 1 / 2 ∧ (em.stickyBit = true ↔ 0 < left) ∧
    x = em.mantissa + (em.roundBit.toNat : ℚ) / 2 + left

variable {em : ExtendedMantissa}

theorem cast_toNat_le_one (b : Bool) : (b.toNat : ℚ) ≤ 1 := by
  exact_mod_cast b.toNat_le

theorem Truncates.mantissa_le (h : Truncates em x) : em.mantissa ≤ x := by
  obtain ⟨left, hleft, -, -, rfl⟩ := h
  have : (0 : ℚ) ≤ em.roundBit.toNat := Nat.cast_nonneg _
  linarith

theorem Truncates.lt_succ (h : Truncates em x) : x < em.mantissa + 1 := by
  obtain ⟨left, -, hleft, -, rfl⟩ := h
  have := cast_toNat_le_one em.roundBit
  linarith

theorem Truncates.shiftRightOne (h : Truncates em x) : Truncates em.shiftRightOne (x / 2) := by
  obtain ⟨left, hnonneg, hlt, hsticky, rfl⟩ := h
  have hround := cast_toNat_le_one em.roundBit
  have hm : (em.mantissa : ℚ) = 2 * (em.mantissa / 2 : Nat) + (em.mantissa % 2 : Nat) := by
    exact_mod_cast (Nat.div_add_mod em.mantissa 2).symm
  have hbit : (em.mantissa % 2 != 0).toNat = em.mantissa % 2 := by
    rcases Nat.mod_two_eq_zero_or_one em.mantissa with hmod | hmod <;> rw [hmod] <;> rfl
  refine ⟨(em.roundBit.toNat : ℚ) / 4 + left / 2, by positivity, by linarith, ?_, ?_⟩
  · change (em.roundBit || em.stickyBit) = true ↔ _
    rw [Bool.or_eq_true, hsticky]
    cases em.roundBit with
    | false => simp
    | true => exact iff_of_true (.inl rfl) (by norm_num; linarith)
  · change _ = ((em.mantissa / 2 : Nat) : ℚ) + ((em.mantissa % 2 != 0).toNat : ℚ) / 2 + _
    rw [hbit]
    linarith

theorem Truncates.shiftRight (h : Truncates em x) (k : Nat) : Truncates (em >>> k) (x / 2 ^ k) := by
  change Truncates (k.repeat ExtendedMantissa.shiftRightOne em) _
  induction k with
  | zero => rwa [pow_zero, div_one]
  | succ k ih =>
      rw [Nat.repeat, pow_succ, ← div_div]
      exact ih.shiftRightOne

/-- The two bits are enough to round by. -/
theorem Truncates.nearest (h : Truncates em x) : Nearest x em.roundedMantissa := by
  obtain ⟨m, round, sticky⟩ := em
  obtain ⟨left, hnonneg, hlt, hsticky, hx⟩ := h
  cases round <;> cases sticky <;>
    simp only [Bool.false_eq_true, false_iff, true_iff, not_lt, Bool.toNat_false, Bool.toNat_true,
      Nat.cast_zero, Nat.cast_one] at hsticky hx
  · exact nearest_of_lt m (by linarith) (by linarith)
  · exact nearest_of_lt m (by linarith) (by linarith)
  · exact nearest_half m (by linarith)
  · refine nearest_of_lt (m + 1) ?_ ?_ <;> push_cast <;> linarith

theorem mantissa_ofMantissaAndAccuracy (m : Nat) (accuracy : Accuracy) :
    (ExtendedMantissa.ofMantissaAndAccuracy m accuracy).mantissa = m := by
  rcases accuracy with _ | _ | _ | _ <;> rfl

/-- The whole part of a fraction, and where between two whole numbers the fraction lies. -/
theorem truncates_fraction (n : Nat) {d : Nat} (hd : 0 < d) :
    Truncates (.ofMantissaAndAccuracy (n / d) (accuracyOfFraction (n % d) d)) (n / d : ℚ) := by
  have hd' : (0 : ℚ) < d := Nat.cast_pos.mpr hd
  have hn : (n : ℚ) / d = (n / d : Nat) + ((n % d : Nat) : ℚ) / d := by
    have hdiv : ((n / d : Nat) : ℚ) * d + (n % d : Nat) = n := by
      exact_mod_cast Nat.div_add_mod' n d
    rw [add_div' _ _ _ hd'.ne', hdiv]
  have hrest : ((n % d : Nat) : ℚ) / d < 1 := by
    rw [div_lt_one hd', Nat.cast_lt]
    exact Nat.mod_lt n hd
  rw [hn]
  generalize n / d = m
  generalize n % d = rest at hrest
  unfold accuracyOfFraction
  split
  · next hzero =>
    exact ⟨0, le_rfl, one_half_pos, iff_of_false Bool.false_ne_true (lt_irrefl 0), by
      simp [ExtendedMantissa.ofMantissaAndAccuracy, hzero]⟩
  · next hne =>
    have hpos : (0 : ℚ) < rest / d := div_pos (Nat.cast_pos.mpr (Nat.pos_of_ne_zero hne)) hd'
    cases hcompare : compare (2 * rest) d with
    | lt =>
        have hhalf : (rest : ℚ) / d < 1 / 2 := by
          rw [div_lt_div_iff₀ hd' two_pos, one_mul, mul_comm]
          exact_mod_cast Nat.compare_eq_lt.mp hcompare
        exact ⟨rest / d, hpos.le, hhalf, iff_of_true rfl hpos, by
          simp [ExtendedMantissa.ofMantissaAndAccuracy]⟩
    | eq =>
        have hhalf : (rest : ℚ) / d = 1 / 2 := by
          rw [div_eq_div_iff hd'.ne' two_ne_zero, one_mul, mul_comm]
          exact_mod_cast Nat.compare_eq_eq.mp hcompare
        exact ⟨0, le_rfl, one_half_pos, iff_of_false Bool.false_ne_true (lt_irrefl 0), by
          simp [ExtendedMantissa.ofMantissaAndAccuracy, hhalf]⟩
    | gt =>
        have hhalf : 1 / 2 < (rest : ℚ) / d := by
          rw [div_lt_div_iff₀ two_pos hd', one_mul, mul_comm]
          exact_mod_cast Nat.compare_eq_gt.mp hcompare
        exact ⟨rest / d - 1 / 2, by linarith, by linarith, iff_of_true rfl (by linarith), by
          simp [ExtendedMantissa.ofMantissaAndAccuracy]⟩

/-! ## Rounding to floating-point numbers -/

/-- The exponent of the last bit of the floating-point numbers near `q`. -/
def lastPlace (q : ℚ) : Int :=
  max (Int.log 2 q - 52) (-1074)

/-- The number `q` rounds to `r`, the multiple of the place value of its last bit that is nearest to
it, or the even one of two. -/
def Rounds (q r : ℚ) : Prop :=
  ∃ k : Nat, Nearest (q / 2 ^ lastPlace q) k ∧ r = value k (lastPlace q)

variable {q q₁ q₂ r r₁ r₂ : ℚ} {m m₁ m₂ : Nat} {e e₁ e₂ : Int}

theorem value_pos (hm : 0 < m) : 0 < value m e :=
  mul_pos (Nat.cast_pos.mpr hm) (by positivity)

theorem div_lastPlace_lt (q : ℚ) : q / 2 ^ lastPlace q < (2 ^ 53 : Nat) := by
  have hlt : q < 2 ^ (Int.log 2 q + 1) := by exact_mod_cast Int.lt_zpow_succ_log_self one_lt_two q
  rw [div_lt_iff₀ (by positivity)]
  refine hlt.trans_le ?_
  rw [Nat.cast_pow, Nat.cast_ofNat, ← zpow_natCast, ← zpow_add₀ two_ne_zero]
  refine zpow_le_zpow_right₀ one_le_two ?_
  have : Int.log 2 q - 52 ≤ lastPlace q := le_max_left _ _
  push_cast
  omega

theorem le_div_lastPlace (hq : 0 < q) (h : lastPlace q ≠ -1074) :
    (2 ^ 52 : Nat) ≤ q / 2 ^ lastPlace q := by
  have hle : (2 : ℚ) ^ Int.log 2 q ≤ q := by exact_mod_cast Int.zpow_log_le_self one_lt_two hq
  rw [le_div_iff₀ (by positivity)]
  refine le_trans ?_ hle
  rw [Nat.cast_pow, Nat.cast_ofNat, ← zpow_natCast, ← zpow_add₀ two_ne_zero]
  refine zpow_le_zpow_right₀ one_le_two ?_
  have : lastPlace q = Int.log 2 q - 52 := (max_choice _ _).resolve_right h
  push_cast
  omega

theorem lastPlace_mono (hq : 0 < q₁) (hle : q₁ ≤ q₂) : lastPlace q₁ ≤ lastPlace q₂ :=
  max_le_max_right _ (Int.sub_le_sub_right (Int.log_mono_right hq hle) _)

/-- A significand that has become too long is one bit shorter at the next exponent. -/
theorem value_carry (e : Int) : value (2 ^ 53) e = value (2 ^ 52) (e + 1) := by
  have hshift := value_shift (2 ^ 52) 1 (e + 1)
  rwa [Nat.cast_one, add_sub_cancel_right] at hshift

theorem Rounds.le_value (h : Rounds q r) : r ≤ value (2 ^ 53) (lastPlace q) := by
  obtain ⟨k, hk, rfl⟩ := h
  unfold value
  gcongr
  exact hk.mono (nearest_self _) (div_lastPlace_lt q).le

/-- Rounding keeps the order. Where the last places differ, a power of two lies between. -/
theorem Rounds.mono (h₁ : Rounds q₁ r₁) (h₂ : Rounds q₂ r₂) (hq : 0 < q₁) (hle : q₁ ≤ q₂) :
    r₁ ≤ r₂ := by
  rcases (lastPlace_mono hq hle).eq_or_lt with heq | hlt
  · obtain ⟨k₁, hk₁, rfl⟩ := h₁
    obtain ⟨k₂, hk₂, rfl⟩ := h₂
    rw [← heq] at hk₂ ⊢
    unfold value
    gcongr
    exact hk₁.mono hk₂ (by gcongr)
  · have hleast : (-1074 : Int) ≤ lastPlace q₁ := le_max_right _ _
    refine h₁.le_value.trans ?_
    obtain ⟨k₂, hk₂, rfl⟩ := h₂
    have hk : 2 ^ 52 ≤ k₂ :=
      (nearest_self _).mono hk₂ (le_div_lastPlace (hq.trans_le hle) (by omega))
    calc value (2 ^ 53) (lastPlace q₁) = value (2 ^ 52) (lastPlace q₁ + 1) := value_carry _
      _ ≤ value k₂ (lastPlace q₂) := by
          unfold value
          gcongr
          · exact one_le_two
          · omega

/-- What a number that is not negative comes to when it is rounded: zero, or a significand and an
exponent. -/
def Amounts (u : UnpackedFloat) (r : ℚ) : Prop :=
  (u = .zero .positive ∧ r = 0) ∨
    ∃ m e, ∃ h : Canonical m e, u = .finite .positive m e h.pos ∧ r = value m e

/-- The place of the highest bit is told by the bits before a number is cut off. -/
theorem log_eq_of_value_le (hm : 0 < m) (hle : value m e ≤ q) (hlt : q < value (m + 1) e) :
    Int.log 2 q = m.log2 + e := by
  have hpow := (two_zpow_log2_le hm).trans hle
  have hq : 0 < q := lt_of_lt_of_le (by positivity) hpow
  refine le_antisymm (Int.lt_add_one_iff.mp ?_) ?_
  · rw [← Int.lt_zpow_iff_log_lt one_lt_two hq, Nat.cast_ofNat, add_right_comm,
      zpow_add₀ two_ne_zero]
    refine hlt.trans_le ?_
    unfold value
    gcongr
    exact_mod_cast Nat.lt_log2_self
  · rwa [← Int.zpow_le_iff_le_log one_lt_two hq, Nat.cast_ofNat]

/-- A number that is cut off at its last place or behind it is brought to that place. -/
theorem targetExponent_eq_lastPlace (hq : 0 < q) (hle : value m e ≤ q)
    (hlt : q < value (m + 1) e) (he : e ≤ lastPlace q) :
    Format.binary64.targetExponent (totalExponent m e) = lastPlace q := by
  rw [targetExponent_eq, totalExponent]
  unfold lastPlace at he ⊢
  rcases Nat.eq_zero_or_pos m with rfl | hm
  · -- Nothing is left of the number, so it lies below the least place.
    have hlog : Int.log 2 q < e := by
      rw [← Int.lt_zpow_iff_log_lt one_lt_two hq]
      simpa [value] using hlt
    have : Nat.log2 0 = 0 := rfl
    omega
  · rw [log_eq_of_value_le hm hle hlt]
    omega

/-- A rounded number that is not zero can be represented, apart from the bound of exponents. -/
theorem exists_canonical_of_nearest {k : Nat} (hq : 0 < q)
    (hk : Nearest (q / 2 ^ lastPlace q) k) (hpos : 0 < k) :
    ∃ m e, Canonical m e ∧ lastPlace q ≤ e ∧ value k (lastPlace q) = value m e := by
  have hle : k ≤ 2 ^ 53 := hk.mono (nearest_self _) (div_lastPlace_lt q).le
  have hleast : (-1074 : Int) ≤ lastPlace q := le_max_right _ _
  rcases hle.eq_or_lt with rfl | hlt
  · exact ⟨2 ^ 52, lastPlace q + 1, ⟨by decide, by decide, by omega, .inl le_rfl⟩, by omega,
      value_carry _⟩
  · refine ⟨k, lastPlace q, ⟨hpos, hlt, hleast, ?_⟩, le_rfl, rfl⟩
    by_cases heq : lastPlace q = -1074
    · exact .inr heq
    · exact .inl ((nearest_self _).mono hk (le_div_lastPlace hq heq))

/-- What has been cut off at its last place or behind it is rounded. -/
theorem amounts_roundWithAccuracy {accuracy : Accuracy} (hq : 0 < q)
    (h : Truncates (.ofMantissaAndAccuracy m accuracy) (q / 2 ^ e)) (he : e ≤ lastPlace q) :
    ∃ r, Rounds q r ∧ Amounts (roundWithAccuracy Format.binary64 .positive m e accuracy) r := by
  have hpow : (0 : ℚ) < 2 ^ e := by positivity
  have hle := h.mantissa_le
  have hlt := h.lt_succ
  rw [mantissa_ofMantissaAndAccuracy] at hle hlt
  rw [le_div_iff₀ hpow] at hle
  rw [div_lt_iff₀ hpow] at hlt
  have htarget := targetExponent_eq_lastPlace hq hle (by exact_mod_cast hlt) he
  have hfirst : shiftToTargetExponent Format.binary64 m e accuracy =
      (ExtendedMantissa.ofMantissaAndAccuracy m accuracy >>> (lastPlace q - e).toNat,
        lastPlace q) := by
    rw [shiftToTargetExponent, htarget, shiftToExponent, Int.toNat_of_nonneg (by omega),
      add_sub_cancel]
  have hk := (h.shiftRight (lastPlace q - e).toNat).nearest
  rw [div_div, ← zpow_natCast, Int.toNat_of_nonneg (by omega), ← zpow_add₀ two_ne_zero,
    add_sub_cancel] at hk
  refine ⟨_, ⟨_, hk, rfl⟩, ?_⟩
  unfold roundWithAccuracy
  rw [hfirst]
  simp only
  generalize (ExtendedMantissa.ofMantissaAndAccuracy m accuracy >>>
    (lastPlace q - e).toNat).roundedMantissa = k at hk ⊢
  rcases Nat.eq_zero_or_pos k with rfl | hpos
  · refine .inl ⟨dif_pos ?_, by rw [value, Nat.cast_zero, zero_mul]⟩
    rw [shiftToTargetExponent, shiftToExponent, mantissa_shiftRight,
      mantissa_ofMantissaAndAccuracy, Nat.zero_div]
  · obtain ⟨m₀, e₀, hcanonical, hle₀, hvalue⟩ := exists_canonical_of_nearest hq hk hpos
    refine .inr ⟨m₀, e₀, hcanonical, ?_, hvalue⟩
    rw [hcanonical.shiftToTargetExponent_eq hvalue hle₀]
    exact dif_neg hcanonical.pos.ne'

end LiveSheet.Binary
