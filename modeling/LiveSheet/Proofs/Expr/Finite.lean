import LiveSheet.Proofs.Decimal.Plain
import LiveSheet.Proofs.Expr.Opening

/-! # Values that are not finite

The result of an operation is judged: an expression in which a result is infinite or no number
has no value. A number that is written out is not judged. So a value is finite unless the
expression is one number, in parentheses and behind signs, that was too large to begin with. -/

namespace LiveSheet

/-- The result of an operation is finite. -/
theorem BinOp.isFinite_of_apply {op : BinOp} {left right x : Float}
    (h : op.apply left right = .ok x) : x.isFinite = true := by
  unfold apply at h
  split at h
  · cases h
  · split at h
    · next hfinite =>
      cases h
      exact hfinite
    · cases h

theorem Sign.isFinite_apply (sign : Sign) (x : Float) :
    (sign.apply x).isFinite = x.isFinite := by
  cases sign with
  | minus => exact Decimal.isFinite_neg x
  | plus => rfl

namespace Expr

/-- The number of an expression without operators. -/
def soleNumber? : Expr → Option Float
  | number x => some x
  | group inner => soleNumber? inner
  | signed _ operand => soleNumber? operand
  | chain first [] => soleNumber? first
  | chain _ (_ :: _) => none

/-- A chain with operators has the value of its last operation. -/
theorem isFinite_of_evalChain {left x : Float} {part : BinOp × Expr} {rest : List (BinOp × Expr)}
    (h : evalChain left (part :: rest) = .ok x) : x.isFinite = true := by
  induction rest generalizing left part with
  | nil =>
      obtain ⟨op, operand⟩ := part
      unfold evalChain at h
      split at h
      · cases h
      · split at h
        · cases h
        · next happly =>
          cases h
          exact BinOp.isFinite_of_apply happly
  | cons next rest ih =>
      obtain ⟨op, operand⟩ := part
      unfold evalChain at h
      split at h
      · cases h
      · split at h
        · cases h
        · exact ih h

/-- A value is finite if and only if it does not come from a number alone that is not. -/
theorem isFinite_eval_iff : ∀ {e : Expr} {x : Float}, e.eval = .ok x →
    (x.isFinite = true ↔ ∀ y, e.soleNumber? = some y → y.isFinite = true)
  | number x, _, h => by
      cases h
      simp [soleNumber?]
  | group inner, _, h => by
      rw [soleNumber?]
      exact isFinite_eval_iff (e := inner) h
  | signed sign operand, x, h => by
      unfold eval at h
      split at h
      · next y hy =>
        cases h
        rw [Sign.isFinite_apply, soleNumber?]
        exact isFinite_eval_iff hy
      · cases h
  | chain first [], _, h => by
      unfold eval at h
      split at h
      · next y hy =>
        cases h
        rw [soleNumber?]
        exact isFinite_eval_iff hy
      · cases h
  | chain first (part :: rest), _, h => by
      unfold eval at h
      split at h
      · refine iff_of_true (isFinite_of_evalChain h) ?_
        rw [soleNumber?]
        rintro _ ⟨⟩
      · cases h

theorem ofText_chars {n : NumberLexeme} (hn : n.Written) :
    ofText (String.ofList n.chars) = .ok (number n.value) := by
  have hchars : Token.ofChars? (String.ofList n.chars).toList = some [.number n.value] := by
    have hread := Token.ofChars?_chars hn [] (by rintro _ ⟨⟩)
    rw [List.append_nil, Token.ofChars?_nil] at hread
    rw [String.toList_ofList, hread]
    rfl
  have hparse := (reads_number n.value).parse.eq_ok (Nat.zero_le _)
  rw [ofText, Token.ofText_of_ofChars? hchars]
  change (parse ((number n.value).tokens ++ [.eof])).outcome = _
  rw [hparse]

/-- A text that is one number has its value. -/
theorem evalText_chars {n : NumberLexeme} (hn : n.Written) :
    evalText (String.ofList n.chars) = .ok n.value := by
  rw [evalText, ofText_chars hn]
  rfl

/-! ## A number that is too large -/

/-- The digit one with `k` zeros. -/
def oneWithZeros (k : Nat) : NumberLexeme :=
  ⟨'1' :: List.replicate k '0', none⟩

theorem written_oneWithZeros (k : Nat) : (oneWithZeros k).Written where
  isDigit_whole c hc := by
    rcases List.mem_cons.mp hc with rfl | hc
    · rfl
    · exact Numeral.isDigit_of_mem_zeros hc
  isDigit_fraction c hc := by cases hc
  hasDigit := rfl

theorem value_oneWithZeros {k : Nat} (hk : 342 ≤ k) :
    (oneWithZeros k).value = Decimal.infinity := by
  have hdigits : Numeral.value ('1' :: List.replicate k '0') = 1 * 10 ^ k :=
    Numeral.value_append_zeros ['1'] k
  have hlog : (1 * 10 ^ k).log2 ≥ 1024 := Decimal.le_log2_shift one_ne_zero (.inl (by omega))
  change (Decimal.ofParts ('1' :: List.replicate k '0') []).toFloat = _
  rw [Decimal.ofParts, List.append_nil, hdigits]
  change Decimal.toFloat ⟨1 * 10 ^ k, (0 : Nat)⟩ = _
  rw [Decimal.toFloat_whole, if_neg (by positivity), if_pos (.inr hlog)]

/-! ## Values of texts -/

/-- The value of a text is finite, unless the text is one number that is not. -/
theorem isFinite_evalText_iff {text : String} {e : Expr} {x : Float}
    (he : ofText text = .ok e) (hx : evalText text = .ok x) :
    x.isFinite = true ↔ ∀ y, e.soleNumber? = some y → y.isFinite = true := by
  rw [evalText, he] at hx
  exact isFinite_eval_iff hx

/-- The digit one with 400 zeros is one number, and neither it nor its value is finite. -/
theorem isFinite_evalText_oneWithZeros : Decimal.infinity.isFinite = true ↔
    ∀ y, (number Decimal.infinity).soleNumber? = some y → y.isFinite = true := by
  have hvalue : (oneWithZeros 400).value = Decimal.infinity := value_oneWithZeros (by decide)
  have htext := ofText_chars (written_oneWithZeros 400)
  have heval := evalText_chars (written_oneWithZeros 400)
  rw [hvalue] at htext heval
  exact isFinite_evalText_iff htext heval

/-- A number that is too large is a value, though it is not finite. -/
theorem not_forall_isFinite_evalText :
    ¬∀ (text : String) (x : Float), evalText text = .ok x → x.isFinite = true := by
  intro h
  have hinfinity := h _ _ (evalText_chars (written_oneWithZeros 400))
  rw [value_oneWithZeros (by decide)] at hinfinity
  revert hinfinity
  decide +kernel

end Expr

end LiveSheet
