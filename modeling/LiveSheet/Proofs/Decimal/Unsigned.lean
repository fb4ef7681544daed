import LiveSheet.Proofs.Decimal.Exact

/-! # Numbers that are read without a sign

A decimal has no sign. The number that is read from it has none either, whatever it is rounded to:
it is built from numbers without a sign by products and quotients. -/

namespace LiveSheet.Binary

open Float.Model Float.Model.UnpackedFloat Decimal

variable {u v : UnpackedFloat} {x y : Float}

/-- The number is not negative, or it is no number. -/
def Unsigned : UnpackedFloat → Prop
  | .notANumber => True
  | .infinity sign => sign = .positive
  | .zero sign => sign = .positive
  | .finite sign _ _ _ => sign = .positive

theorem Unsigned.exists_pack (h : Unsigned u) : ∃ exponent mantissa,
    UnpackedFloat.pack Format.binary64 u =
      packComponents Format.binary64 .positive exponent mantissa := by
  cases u with
  | notANumber => exact ⟨_, _, rfl⟩
  | infinity sign => obtain rfl : sign = .positive := h; exact ⟨_, _, rfl⟩
  | zero sign => obtain rfl : sign = .positive := h; exact ⟨_, _, rfl⟩
  | finite sign m e hm =>
      obtain rfl : sign = .positive := h
      unfold UnpackedFloat.pack
      simp only
      split
      · exact ⟨_, _, rfl⟩
      · split <;> exact ⟨_, _, rfl⟩

theorem signOf_pack (h : Unsigned u) : signOf (.ofModel (Float.Model.pack u)) = .positive := by
  obtain ⟨exponent, mantissa, hpack⟩ := h.exists_pack
  rw [← ofBitVec_unpackSign]
  change UnpackedFloat.Sign.ofBitVec (unpackSign (UnpackedFloat.pack Format.binary64 u)) = _
  rw [hpack, unpackSign_packComponents, UnpackedFloat.Sign.ofBitVec_toBitVec]

theorem unsigned_unpack (h : signOf x = .positive) : Unsigned x.toModel.unpack := by
  have hsign := ofBitVec_unpackSign x
  rw [h] at hsign
  unfold Float.Model.unpack UnpackedFloat.unpack
  simp only [hsign]
  split
  · split
    · rfl
    · trivial
  · split
    · split <;> rfl
    · rfl

theorem unsigned_roundWithAccuracy {m : Nat} {e : Int} {accuracy : Accuracy} :
    Unsigned (roundWithAccuracy Format.binary64 .positive m e accuracy) := by
  unfold roundWithAccuracy
  simp only
  split <;> rfl

theorem Unsigned.mul (hu : Unsigned u) (hv : Unsigned v) :
    Unsigned (UnpackedFloat.mul Format.binary64 u v) := by
  cases u <;> cases v <;> first
    | trivial
    | cases hu; cases hv; rfl
    | cases hu; cases hv; exact unsigned_roundWithAccuracy

theorem Unsigned.div (hu : Unsigned u) (hv : Unsigned v) :
    Unsigned (UnpackedFloat.div Format.binary64 u v) := by
  cases u <;> cases v <;> first
    | trivial
    | cases hu; cases hv; rfl
    | cases hu; cases hv; exact unsigned_roundWithAccuracy

theorem signOf_mul (hx : signOf x = .positive) (hy : signOf y = .positive) :
    signOf (x * y) = .positive :=
  signOf_pack ((unsigned_unpack hx).mul (unsigned_unpack hy))

theorem signOf_div (hx : signOf x = .positive) (hy : signOf y = .positive) :
    signOf (x / y) = .positive :=
  signOf_pack ((unsigned_unpack hx).div (unsigned_unpack hy))

theorem signOf_ofNat (n : Nat) : signOf (.ofModel (.ofNat n)) = .positive := by
  refine signOf_pack ?_
  change Unsigned (UnpackedFloat.normalize Format.binary64 (n : Int) 0 .positive)
  unfold UnpackedFloat.normalize
  split
  · next h =>
    rw [compare_lt_iff_lt] at h
    omega
  · rfl
  · exact unsigned_roundWithAccuracy

theorem unsigned_ofScientific (m : Nat) (e : Int) :
    Unsigned (UnpackedFloat.ofScientific Format.binary64 m e) := by
  unfold UnpackedFloat.ofScientific
  split
  · rfl
  · split
    · rfl
    · split
      · rfl
      · split <;> exact unsigned_roundWithAccuracy

theorem signOf_ofScientific (m : Nat) (negative : Bool) (e : Nat) :
    signOf (Float.ofScientific m negative e) = .positive := by
  unfold Float.ofScientific
  split
  · next h =>
    have hpower : ∀ hlt,
        signOf (getElem Float.exactlyRepresentablePowersOfTen e hlt) = .positive := fun _ =>
      (congrArg signOf (powerOfTen_eq ⟨e, Nat.lt_succ_of_le h.2⟩)).trans (signOf_ofNat _)
    rw [toFloat_toUInt64 h.1]
    simp only
    split
    · exact signOf_div (signOf_ofNat m) (hpower _)
    · exact signOf_mul (signOf_ofNat m) (hpower _)
  · exact signOf_pack (unsigned_ofScientific m _)

end LiveSheet.Binary

namespace LiveSheet.Decimal

open Binary

theorem not_isNegative_of_signOf {x : Float} (h : signOf x = .positive) :
    Style.isNegative x = false := by
  unfold signOf at h
  split at h
  · cases h
  · next hneg => exact Bool.eq_false_iff.mpr hneg

/-- What is read from a decimal is not negative. -/
theorem isNegative_toFloat (d : Decimal) : Style.isNegative d.toFloat = false := by
  have hinfinity : Style.isNegative infinity = false := by decide +kernel
  unfold toFloat
  split
  · split
    · decide +kernel
    · split
      · exact hinfinity
      · exact not_isNegative_of_signOf (signOf_ofScientific _ _ _)
  · split
    · exact hinfinity
    · exact not_isNegative_of_signOf (signOf_ofScientific _ _ _)

end LiveSheet.Decimal
