import LiveSheet.Proofs.Decimal.Rounding
import LiveSheet.Decimal.Style

/-! # Decimals that read back

The exact decimal of a finite number reads back as its magnitude, although reading may go by a
quotient of rounded numbers, and so does its shortest decimal. The sign of a number is its first
bit and nothing else. -/

namespace LiveSheet.Decimal

open Float.Model Float.Model.UnpackedFloat Binary

/-- The sign of a number, as its first bit tells it. -/
def signOf (x : Float) : UnpackedFloat.Sign :=
  if Style.isNegative x then .negative else .positive

theorem toNat_unpackMantissa (b : BitVec 64) :
    (@unpackMantissa Format.binary64 b).toNat = b.toNat % 2 ^ 52 := by
  rw [unpackMantissa_def]
  exact BitVec.extractLsb'_toNat 0 52 b

theorem toNat_unpackExponent (b : BitVec 64) :
    (@unpackExponent Format.binary64 b).toNat = b.toNat / 2 ^ 52 % 2 ^ 11 := by
  rw [unpackExponent_def, ← Nat.shiftRight_eq_div_pow]
  exact BitVec.extractLsb'_toNat 52 11 b

theorem toNat_unpackSign (b : BitVec 64) :
    (@unpackSign Format.binary64 b).toNat = b.toNat / 2 ^ 63 % 2 := by
  rw [unpackSign_def, ← Nat.shiftRight_eq_div_pow]
  exact BitVec.extractLsb'_toNat 63 1 b

theorem ofBitVec_unpackSign (x : Float) :
    UnpackedFloat.Sign.ofBitVec (@unpackSign Format.binary64 x.toModel.toBits.toBitVec) =
      signOf x := by
  have hlt : x.toBits.toNat < 2 ^ 64 := x.toBits.toNat_lt
  have hsign : (@unpackSign Format.binary64 x.toModel.toBits.toBitVec) = 0#1 ↔
      ¬Style.isNegative x = true := by
    rw [← BitVec.toNat_inj, toNat_unpackSign, Style.isNegative, decide_eq_true_eq,
      ge_iff_le, UInt64.le_iff_toNat_le]
    change x.toBits.toNat / 2 ^ 63 % 2 = 0 ↔ ¬2 ^ 63 ≤ x.toBits.toNat
    omega
  rw [UnpackedFloat.Sign.ofBitVec, signOf]
  simp only [hsign, ite_not]

/-- What the bits of a finite number say. -/
theorem unpack_of_isFinite {x : Float} (hx : x.isFinite = true) :
    ((binary x).1 = 0 ∧ x.toModel.unpack = .zero (signOf x)) ∨
      ∃ h : Canonical (binary x).1 (binary x).2, (binary x).2 ≤ 971 ∧
        x.toModel.unpack = .finite (signOf x) (binary x).1 (binary x).2 h.pos := by
  have hexponent := toNat_unpackExponent x.toModel.toBits.toBitVec
  have hmantissa := toNat_unpackMantissa x.toModel.toBits.toBitVec
  have hbits : x.toModel.toBits.toBitVec.toNat = x.toBits.toNat := rfl
  rw [hbits] at hexponent hmantissa
  have hfinite : x.toModel.unpack.isFinite = true := hx
  have hsign := ofBitVec_unpackSign x
  unfold Float.Model.unpack UnpackedFloat.unpack at hfinite ⊢
  simp only [hsign] at hfinite ⊢
  split at hfinite
  · split at hfinite <;> cases hfinite
  · next hones =>
    rw [if_neg hones]
    have hlt : x.toBits.toNat / 2 ^ 52 % 2 ^ 11 < 2047 := by
      have hne : (@unpackExponent Format.binary64 x.toModel.toBits.toBitVec).toNat ≠
          2047 := fun h => hones (BitVec.eq_of_toNat_eq h)
      omega
    have hbias : ((Format.binary64.exponentBias : Int) +
        (Format.binary64.mantissaBitsWithoutImplicit : Int)) = 1075 := rfl
    have hbinary : binary x = if x.toBits.toNat / 2 ^ 52 % 2 ^ 11 = 0 then
        (x.toBits.toNat % 2 ^ 52, -1074)
      else (x.toBits.toNat % 2 ^ 52 + 2 ^ 52,
        ((x.toBits.toNat / 2 ^ 52 % 2 ^ 11 : Nat) : Int) - 1075) := rfl
    have hshort : x.toBits.toNat % 2 ^ 52 < 2 ^ 52 := Nat.mod_lt _ (by decide)
    rw [hbias]
    by_cases hzero : @unpackExponent Format.binary64 x.toModel.toBits.toBitVec = 0#11
    · have hleast : x.toBits.toNat / 2 ^ 52 % 2 ^ 11 = 0 := by rw [← hexponent, hzero]; rfl
      rw [if_pos hleast] at hbinary
      simp only [hbinary, if_pos hzero, hexponent, hleast]
      split
      · next hnothing =>
        have : x.toBits.toNat % 2 ^ 52 = 0 := by rw [← hmantissa, hnothing]; rfl
        exact .inl ⟨this, rfl⟩
      · next hsome =>
        have hne : x.toBits.toNat % 2 ^ 52 ≠ 0 := fun h =>
          hsome (BitVec.eq_of_toNat_eq (hmantissa.trans h))
        refine .inr ⟨⟨by omega, by omega, by omega, .inr rfl⟩, by omega, ?_⟩
        simp only [hmantissa]
        rfl
    · have hne : x.toBits.toNat / 2 ^ 52 % 2 ^ 11 ≠ 0 := fun h =>
        hzero (BitVec.eq_of_toNat_eq (hexponent.trans h))
      rw [if_neg hne] at hbinary
      simp only [hbinary, if_neg hzero, hexponent, toNat_hidden, hmantissa]
      refine .inr ⟨⟨by omega, by omega, by omega, .inl (by omega)⟩, by omega, ?_⟩
      simp only [UnpackedFloat.finite.injEq, true_and]
      exact ⟨Nat.add_comm _ _, trivial⟩

theorem abs_eq (x : Float) : x.abs = .ofModel (Float.Model.pack x.toModel.unpack.abs) := rfl

theorem abs_of_zero {x : Float} (hx : x.toModel.unpack = .zero (signOf x)) : x.abs = 0 := by
  rw [abs_eq, hx]
  rfl

theorem abs_of_finite {x : Float} {m : Nat} {e : Int} (h : Canonical m e)
    (hx : x.toModel.unpack = .finite (signOf x) m e h.pos) : x.abs = number m e h.pos := by
  rw [abs_eq, hx]
  rfl

/-- A negative number is its magnitude with a minus sign. -/
theorem neg_abs {x : Float} (hx : x.isFinite = true) (hneg : Style.isNegative x = true) :
    -x.abs = x := by
  have hpack : Float.ofModel (Float.Model.pack x.toModel.unpack) = x := Float.ofBits_toBits x
  have hsign : signOf x = .negative := if_pos hneg
  rcases unpack_of_isFinite hx with ⟨-, hzero⟩ | ⟨h, he, hfinite⟩
  · rw [abs_of_zero hzero, ← hpack, hzero, hsign]
    rfl
  · rw [hfinite, hsign] at hpack
    rw [abs_of_finite h hfinite]
    change Float.ofModel (Float.Model.pack (UnpackedFloat.neg (Float.Model.unpack _))) = x
    rw [number, h.unpack_pack he]
    exact hpack

/-- A number that is not negative is its magnitude. -/
theorem abs_of_not_negative {x : Float} (hx : x.isFinite = true)
    (hpos : Style.isNegative x = false) : x.abs = x := by
  have hpack : Float.ofModel (Float.Model.pack x.toModel.unpack) = x := Float.ofBits_toBits x
  have hsign : signOf x = .positive := if_neg (Bool.eq_false_iff.mp hpos)
  rw [abs_eq]
  conv_rhs => rw [← hpack]
  rcases unpack_of_isFinite hx with ⟨-, hzero⟩ | ⟨h, he, hfinite⟩
  · rw [hzero, hsign]
    rfl
  · rw [hfinite, hsign]
    rfl

/-- A minus sign makes no number finite or infinite. -/
theorem isFinite_neg (x : Float) : (-x).isFinite = x.isFinite := by
  change (Float.Model.pack (UnpackedFloat.neg x.toModel.unpack)).unpack.isFinite =
    x.toModel.unpack.isFinite
  by_cases hx : x.isFinite = true
  · rcases unpack_of_isFinite hx with ⟨-, hzero⟩ | ⟨h, he, hfinite⟩
    · rw [hzero]
      cases signOf x <;> rfl
    · rw [hfinite, UnpackedFloat.neg, h.unpack_pack he]
      rfl
  · change ¬x.toModel.unpack.isFinite = true at hx
    cases hunpack : x.toModel.unpack with
    | notANumber => rfl
    | infinity sign => cases sign <;> rfl
    | zero => rw [hunpack] at hx; exact (hx rfl).elim
    | finite => rw [hunpack] at hx; exact (hx rfl).elim

/-! ## The exact decimal -/

theorem ofHalves_eq (m k : Nat) : ∃ j, j ≤ k ∧ 2 ^ j ∣ m ∧
    ofHalves m k = ⟨m / 2 ^ j * 5 ^ (k - j), -((k - j : Nat) : Int)⟩ := by
  obtain ⟨j, hj, hgcd⟩ := (Nat.dvd_prime_pow Nat.prime_two).mp (Nat.gcd_dvd_right m (2 ^ k))
  refine ⟨j, hj, hgcd ▸ Nat.gcd_dvd_left m (2 ^ k), ?_⟩
  have hpow : Nat.log2 (2 ^ k / 2 ^ j) = k - j := by
    rw [Nat.pow_div hj (by decide), Nat.log2_two_pow]
  change Decimal.mk (m / Nat.gcd m (2 ^ k) * 5 ^ Nat.log2 (2 ^ k / Nat.gcd m (2 ^ k)))
    (-(Nat.log2 (2 ^ k / Nat.gcd m (2 ^ k)) : Nat)) = _
  rw [hgcd, hpow]

theorem ofHalves_zero (k : Nat) : ofHalves 0 k = ⟨0, 0⟩ := by
  have hlog : Nat.log2 1 = 0 := rfl
  simp [ofHalves, Nat.div_self (Nat.two_pow_pos k), hlog]

theorem toFloat_whole (n e : Nat) : toFloat ⟨n, e⟩ =
    if n = 0 then 0 else if e > overflowExponent ∨ n.log2 ≥ 1024 then infinity
    else Float.ofScientific (n * 10 ^ e) false 0 := rfl

theorem toFloat_negSucc (n k : Nat) : toFloat ⟨n, Int.negSucc k⟩ =
    if n.log2 ≥ 1024 + 4 * (k + 1) then infinity else Float.ofScientific n true (k + 1) := rfl

/-- A whole number that is a floating-point number reads as that number. -/
theorem toFloat_nat {m n : Nat} {e : Int} (h : Canonical m e) (he : e ≤ 971)
    (hvalue : value n 0 = value m e) : toFloat ⟨n, 0⟩ = number m e h.pos := by
  have hn : 0 < n := by
    refine Nat.pos_of_ne_zero fun hn => h.pos.ne' ?_
    rw [hn, value, value, Nat.cast_zero, zero_mul] at hvalue
    exact_mod_cast (mul_eq_zero.mp hvalue.symm).resolve_right (zpow_ne_zero e two_ne_zero)
  have hlog : n.log2 < 1024 := by
    have := log2_add_eq hn h.pos hvalue
    have := h.log2_lt
    omega
  rw [← Nat.cast_zero, toFloat_whole, if_neg hn.ne', if_neg (by rw [overflowExponent]; omega),
    pow_zero, mul_one]
  exact h.ofScientific_eq_nat hn hvalue

/-- A decimal fraction that is a floating-point number reads as that number, if it has no more
digits than fractions of powers of two have. -/
theorem toFloat_fraction {m n k : Nat} {e : Int} (h : Canonical m e) (hn : 0 < n)
    (hlog : n.log2 < 1024 + 4 * (k + 1)) (hk : k < 2048)
    (hvalue : value n 0 = value m e * value (10 ^ (k + 1)) 0) :
    toFloat ⟨n, Int.negSucc k⟩ = number m e h.pos := by
  rw [toFloat_negSucc, if_neg (Nat.not_le.mpr hlog)]
  exact h.ofScientific_eq_div hn hk hvalue

theorem toFloat_ofHalves {m k : Nat} (h : Canonical m (-k)) :
    (ofHalves m k).toFloat = number m (-k) h.pos := by
  obtain ⟨j, hj, ⟨q, rfl⟩, hhalves⟩ := ofHalves_eq m k
  have hle := h.le
  have hq : 0 < q := Nat.pos_of_ne_zero fun hq => h.pos.ne' (by rw [hq, mul_zero])
  have hvalue : value q (-((k - j : Nat) : Int)) = value (2 ^ j * q) (-k) := by
    rw [← value_shift q j, mul_comm (2 ^ j)]
    congr 1
    omega
  rw [hhalves, Nat.mul_div_cancel_left q (Nat.two_pow_pos j)]
  cases hplaces : k - j with
  | zero =>
      rw [hplaces] at hvalue
      rw [pow_zero, mul_one]
      exact toFloat_nat h (by omega) hvalue
  | succ places =>
      have hdigits : q * 5 ^ (places + 1) < 2 ^ (53 + 3 * (places + 1)) := by
        rw [pow_add 2, pow_mul 2]
        have hlt := h.lt
        have hqle : q ≤ 2 ^ j * q := Nat.le_mul_of_pos_left q (Nat.two_pow_pos j)
        exact Nat.mul_lt_mul_of_lt_of_le (by omega) (Nat.pow_le_pow_left (by decide) _)
          (by positivity)
      have hlog := (Nat.log2_lt (by positivity)).mpr hdigits
      refine toFloat_fraction h (by positivity) (by omega) (by omega) ?_
      rw [hplaces] at hvalue
      rw [← hvalue, value_ten_pow, value_mul, neg_add_cancel]

/-- The exact decimal of a finite number reads as its magnitude. -/
theorem toFloat_exact {x : Float} (hx : x.isFinite = true) : (exact x).toFloat = x.abs := by
  rcases unpack_of_isFinite hx with ⟨hm, hzero⟩ | ⟨h, he, hfinite⟩
  · rw [abs_of_zero hzero]
    unfold exact
    split
    · next m e hbinary =>
      rw [hbinary] at hm
      subst hm
      rw [zero_mul]
      rfl
    · next m e hbinary =>
      rw [hbinary] at hm
      subst hm
      rw [ofHalves_zero]
      rfl
  · rw [abs_of_finite h hfinite]
    have hlt := h.log2_lt
    clear hfinite
    unfold exact
    generalize binary x = b at h he hlt ⊢
    obtain ⟨m, e⟩ := b
    cases e with
    | ofNat e =>
        have hvalue := value_shift m e e
        rw [sub_self] at hvalue
        exact toFloat_nat h he hvalue
    | negSucc e => exact toFloat_ofHalves (k := e + 1) h

/-- The shortest decimal of a finite number reads as its magnitude. -/
theorem toFloat_shortest {x : Float} (hx : x.isFinite = true) (tie : Tie) :
    (shortest tie x).toFloat = x.abs := by
  unfold shortest
  simp only
  cases hfound : (List.range' 1 17).findSome? fun count =>
      (neighbours tie (exact x) (exact x).length (reach x) count).find? fun candidate =>
        candidate.toFloat = x.abs with
  | none => exact toFloat_exact hx
  | some d =>
      obtain ⟨count, -, hcandidate⟩ := List.exists_of_findSome?_eq_some hfound
      have hreads := List.find?_some hcandidate
      exact of_decide_eq_true hreads

end LiveSheet.Decimal
