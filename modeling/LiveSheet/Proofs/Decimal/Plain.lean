import LiveSheet.Expr
import LiveSheet.Formula
import LiveSheet.Proofs.Decimal.Exact
import LiveSheet.Proofs.Expr.Lexing

/-! # Numbers that are written and read again

The plain style writes a number with digits and at most one point, after a minus sign if the
number has one. Such a text is read as at most two tokens: the sign, and the magnitude of the
number. -/

namespace LiveSheet

open NumberLexeme

namespace Numeral

theorem value_eq (ds : List Char) : value ds = Nat.ofDigitChars 10 ds 0 := by
  rw [Nat.ofDigitChars_eq_foldl]
  rfl

theorem value_digits (n : Nat) : value (digits n) = n := by
  rw [value_eq, digits, Nat.ofDigitChars_ten_toDigits]

theorem value_append_zeros (ds : List Char) (k : Nat) :
    value (ds ++ List.replicate k '0') = value ds * 10 ^ k := by
  rw [value_eq, value_eq, Nat.ofDigitChars_append, Nat.ofDigitChars_replicate_zero, mul_comm]

theorem value_zeros_append (k : Nat) (ds : List Char) :
    value (List.replicate k '0' ++ ds) = value ds := by
  rw [value_eq, value_eq, Nat.ofDigitChars_append, Nat.ofDigitChars_replicate_zero, mul_zero]

theorem isDigit_iff {c : Char} : c.isDigit = true ↔ 48 ≤ c.toNat ∧ c.toNat ≤ 57 := by
  simp [Char.isDigit, UInt32.le_iff_toNat_le]

theorem isDigit_digits {n : Nat} {c : Char} (hc : c ∈ digits n) : c.isDigit = true :=
  Nat.isDigit_of_mem_toDigits (by decide) (by decide) hc

theorem isDigit_of_mem_zeros {k : Nat} {c : Char} (hc : c ∈ List.replicate k '0') :
    c.isDigit = true := by
  rw [List.eq_of_mem_replicate hc]
  rfl

end Numeral

namespace Decimal

/-- Ten is more than `2 ^ 3`. -/
theorem le_log2_shift {n e k : Nat} (hn : n ≠ 0) (h : k ≤ 3 * e ∨ k ≤ n.log2) :
    k ≤ (n * 10 ^ e).log2 := by
  rw [Nat.le_log2 (mul_ne_zero hn (by positivity))]
  rcases h with he | hlog
  · calc
      2 ^ k ≤ 2 ^ (3 * e) := Nat.pow_le_pow_right (by decide) he
      _ = 8 ^ e := by rw [pow_mul]; norm_num
      _ ≤ 10 ^ e := Nat.pow_le_pow_left (by decide) e
      _ ≤ n * 10 ^ e := Nat.le_mul_of_pos_left _ (Nat.pos_of_ne_zero hn)
  · exact ((Nat.le_log2 hn).mp hlog).trans (Nat.le_mul_of_pos_right n (by positivity))

/-- The zeros of a whole number may be written out. -/
theorem toFloat_shift (n e : Nat) : toFloat ⟨n * 10 ^ e, (0 : Nat)⟩ = toFloat ⟨n, e⟩ := by
  rw [toFloat_whole, toFloat_whole]
  by_cases hn : n = 0
  · rw [hn, zero_mul]
    rfl
  have hpos : n * 10 ^ e ≠ 0 := mul_ne_zero hn (by positivity)
  have hzero : ¬0 > overflowExponent := by decide
  rw [if_neg hpos, if_neg hn, pow_zero, mul_one]
  by_cases hlarge : e > overflowExponent ∨ n.log2 ≥ 1024
  · have hlog : (n * 10 ^ e).log2 ≥ 1024 := by
      refine le_log2_shift hn (hlarge.imp_left fun he => ?_)
      rw [overflowExponent] at he
      omega
    rw [if_pos hlarge, if_pos (.inr hlog)]
  · rw [if_neg hlarge]
    -- The digits alone may tell less than the digits with their zeros.
    split
    · next hlog =>
      exact (Binary.ofScientific_of_large (hlog.resolve_left hzero)).symm
    · rfl

/-- A decimal is written as a number that has its value. -/
theorem exists_lexeme (d : Decimal) : ∃ n : NumberLexeme, n.Written ∧
    Style.plain.decimalChars d = n.chars ∧ n.value = d.toFloat := by
  obtain ⟨digits, exponent⟩ := d
  change ∃ n : NumberLexeme, n.Written ∧ Style.plain.positionalChars ⟨digits, exponent⟩ =
    n.chars ∧ n.value = _
  have hlength : 0 < (Numeral.digits digits).length := Nat.length_toDigits_pos
  cases exponent with
  | ofNat e =>
      refine ⟨⟨Numeral.digits digits ++ List.replicate e '0', none⟩, ⟨?_, ?_, ?_⟩, ?_, ?_⟩
      · intro c hc
        rcases List.mem_append.mp hc with hc | hc
        · exact Numeral.isDigit_digits hc
        · exact Numeral.isDigit_of_mem_zeros hc
      · intro c hc
        cases hc
      · simp [NumberLexeme.hasDigit, List.ne_nil_of_length_pos hlength]
      · simp [Style.positionalChars, Style.plain, NumberLexeme.chars]
      · rw [NumberLexeme.value, ofParts, Option.getD_none, List.append_nil,
          Numeral.value_append_zeros, Numeral.value_digits]
        exact toFloat_shift digits e
  | negSucc e =>
      generalize hpadded : List.replicate (e + 2 - (Numeral.digits digits).length) '0' ++
        Numeral.digits digits = padded
      have hlong : e + 2 ≤ padded.length := by
        rw [← hpadded, List.length_append, List.length_replicate]
        omega
      have hdigit : ∀ c ∈ padded, c.isDigit = true := by
        intro c hc
        rw [← hpadded] at hc
        rcases List.mem_append.mp hc with hc | hc
        · exact Numeral.isDigit_of_mem_zeros hc
        · exact Numeral.isDigit_digits hc
      have hvalue : Numeral.value padded = digits := by
        rw [← hpadded, Numeral.value_zeros_append, Numeral.value_digits]
      refine ⟨⟨padded.take (padded.length - (e + 1)),
        some (padded.drop (padded.length - (e + 1)))⟩, ⟨?_, ?_, ?_⟩, ?_, ?_⟩
      · exact fun c hc => hdigit c (List.mem_of_mem_take hc)
      · exact fun c hc => hdigit c (List.mem_of_mem_drop hc)
      · have hwhole : padded.take (padded.length - (e + 1)) ≠ [] := by
          apply List.ne_nil_of_length_pos
          rw [List.length_take]
          omega
        simp only [NumberLexeme.hasDigit, List.isEmpty_eq_false_iff.mpr hwhole, Bool.false_and,
          Bool.not_false]
      · simp only [Style.positionalChars, hpadded, NumberLexeme.chars]
      · have hplaces : -(((padded.drop (padded.length - (e + 1))).length : Nat) : Int) =
            Int.negSucc e := by
          rw [List.length_drop]
          omega
        rw [NumberLexeme.value, ofParts, Option.getD_some, List.take_append_drop, hvalue, hplaces]

end Decimal

/-! ## Substituted numbers -/

namespace Expr

/-- The expression as which a number is written. -/
def literal (x : Float) : Expr :=
  if Decimal.Style.isNegative x then .signed .minus (.number x.abs) else .number x.abs

/-- A number that is written and read again is the same number. -/
theorem eval_literal {x : Float} (hx : x.isFinite = true) : (literal x).eval = .ok x := by
  rw [literal]
  split
  · next hneg =>
    simp only [eval, Sign.apply, Decimal.neg_abs hx hneg]
  · next hpos =>
    simp only [eval, Decimal.abs_of_not_negative hx (Bool.eq_false_iff.mpr hpos)]

end Expr

theorem isNaN_of_isFinite {x : Float} (hx : x.isFinite = true) : x.isNaN = false := by
  change x.toModel.unpack.isFinite = true at hx
  change x.toModel.unpack.isNaN = false
  cases hunpack : x.toModel.unpack with
  | notANumber => rw [hunpack] at hx; cases hx
  | infinity => rfl
  | zero => rfl
  | finite => rfl

namespace Token

/-- A finite number that is put in place of a reference is read as the number that it is. -/
theorem ofChars?_operandText {x : Float} (hx : x.isFinite = true) {rest : List Char}
    (hrest : ∀ c ∈ rest.head?, startsWith c = false) :
    ofChars? ((Formula.operandText x).toList ++ rest) =
      (ofChars? rest).map ((Expr.literal x).tokens ++ ·) := by
  obtain ⟨n, hn, hchars, hvalue⟩ := Decimal.exists_lexeme (Decimal.shortest .up x)
  rw [Decimal.toFloat_shortest hx] at hvalue
  have htie : Decimal.Style.plain.tie = .up := rfl
  rw [Formula.operandText, if_pos hx, Decimal.Style.write, isNaN_of_isFinite hx]
  simp only [Bool.false_eq_true, if_false, hx, if_true, String.toList_ofList, htie, hchars]
  rw [Expr.literal]
  split
  · rw [List.singleton_append, List.cons_append, ofChars?_symbol rfl, ofChars?_chars hn rest hrest,
      Option.map_map, hvalue]
    rfl
  · rw [List.nil_append, ofChars?_chars hn rest hrest, hvalue]
    rfl

end Token

end LiveSheet
