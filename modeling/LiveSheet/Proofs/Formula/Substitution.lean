import LiveSheet.Proofs.Formula.Words

/-! # Substitution keeps the meaning

A formula means what its words mean when every reference is one number. It is computed in
another way: the numbers are put into the text, and the text is read from its first character.
Both give the same as long as the parentheses and the sign that are put in with a number do not
exceed the nesting that is allowed. -/

namespace LiveSheet.Formula

variable {α : Type} {raw : String} {values : List Float}

/-- The expression of a formula whose references are filled in. -/
def readWith (σ : Filling α) (f : Formula) (as : List α) : Except CellError Expr := do
  let words ← wordsOf f.segments as
  (Expr.parse (σ.tokens words ++ [.eof])).outcome.mapError ExprError.toCellError

/-- The value of the expression of a formula, once it is known. -/
def valueOf (reading : Except CellError Expr) : Except CellError Float := do
  let e ← reading
  e.eval.mapError ExprError.toCellError

/-- A number that is one token, as every reference is by itself. -/
def atom : Filling Float :=
  ⟨.number, Expr.isOperand_number⟩

/-- The expression of a formula whose references are numbers. -/
def reading (f : Formula) (values : List Float) : Except CellError Expr :=
  f.readWith atom values

/-- What a formula means. -/
def meaning (f : Formula) (values : List Float) : Except CellError Float :=
  valueOf (f.reading values)

theorem mapError_evalText (text : String) :
    (Expr.evalText text).mapError ExprError.toCellError =
      valueOf (((Token.ofText text).mapError ExprError.toCellError).bind fun tokens =>
        (Expr.parse tokens).outcome.mapError ExprError.toCellError) := by
  unfold Expr.evalText Expr.ofText valueOf
  cases Token.ofText text with
  | error e => rfl
  | ok tokens =>
      change ((Expr.parse tokens).outcome.bind Expr.eval).mapError _ =
        ((Expr.parse tokens).outcome.mapError ExprError.toCellError).bind _
      cases (Expr.parse tokens).outcome <;> rfl

/-- The computed value is the value of the expression whose references are numbers in
parentheses. -/
theorem evalWith_eq (herror : (ofRaw raw).referenceError? = none)
    (hlength : values.length = (ofRaw raw).references.length)
    (hfinite : ∀ x ∈ values, x.isFinite = true) :
    (ofRaw raw).evalWith values = valueOf ((ofRaw raw).readWith written values) := by
  obtain ⟨chars, hchars, -⟩ := exists_pasted (ofRaw raw).source.toList herror hlength hfinite
  have hsubstitute : (ofRaw raw).substitute values = .ok (String.ofList chars) := by
    change substituteOnto "" (Segment.ofCharsOnto [] (ofRaw raw).source.toList) values = _
    rw [hchars.substituteOnto_eq, String.empty_append]
  calc
    (ofRaw raw).evalWith values
      = (Expr.evalText (String.ofList chars)).mapError ExprError.toCellError := by
        simp only [evalWith, hsubstitute]
        cases Expr.evalText (String.ofList chars) <;> rfl
    _ = valueOf ((ofRaw raw).readWith written values) := by
        rw [mapError_evalText, hchars.mapError_ofText, readWith]
        congr 1
        change _ = (wordsOf (Segment.ofCharsOnto [] (ofRaw raw).source.toList) values).bind _
        cases wordsOf (Segment.ofCharsOnto [] (ofRaw raw).source.toList) values <;> rfl

theorem readWith_of_wordsOf (σ : Filling α) {f : Formula} {as : List α} {words : List (Word α)}
    (h : wordsOf f.segments as = .ok words) : f.readWith σ as =
      (Expr.parse (σ.tokens words ++ [.eof])).outcome.mapError ExprError.toCellError := by
  rw [readWith, h]
  rfl

/-- A formula is malformed whatever is filled in for its references, or it is one expression that
is too deep for some fillings. -/
theorem readWith_cases (f : Formula) (as : List α) :
    (∃ error, ∀ σ : Filling α, f.readWith σ as = .error error) ∨
    ∃ e : OpenExpr α, ∀ σ : Filling α, f.readWith σ as =
      if (e.fill σ).nesting ≤ Expr.maxNesting then .ok (e.fill σ) else .error .malformed := by
  cases hwords : wordsOf f.segments as with
  | error e => exact .inl ⟨e, fun σ => by rw [readWith, hwords]; rfl⟩
  | ok words =>
      rcases Expr.parse_filled words with hfail | ⟨e, he⟩
      · exact .inl ⟨.malformed, fun σ => (readWith_of_wordsOf σ hwords).trans (hfail σ)⟩
      · exact .inr ⟨e, fun σ => (readWith_of_wordsOf σ hwords).trans (he σ)⟩

theorem readWith_map {β : Type} (σ : Filling β) (f : Formula) (g : α → β) (as : List α) :
    f.readWith σ (as.map g) = f.readWith (σ.comap g) as := by
  rw [readWith, readWith, wordsOf_map]
  cases wordsOf f.segments as with
  | error e => rfl
  | ok words => simp only [Except.map, bind, Except.bind, σ.tokens_map]

/-- The nesting that a number brings with it. -/
theorem nesting_written (x : Float) :
    (written.expr x).nesting = if Decimal.Style.isNegative x then 2 else 1 := by
  have hwritten : written.expr x = .group (.literal x) := rfl
  rw [hwritten, Expr.nesting_group, Expr.literal]
  by_cases hneg : Decimal.Style.isNegative x = true
  · rw [if_pos hneg, if_pos hneg, Expr.nesting_signed, Expr.nesting_number]
  · rw [if_neg hneg, if_neg hneg, Expr.nesting_number]

theorem nesting_written_le (x : Float) : (written.expr x).nesting ≤ 2 := by
  rw [nesting_written]
  split <;> decide

/-! ## A reference behind signs -/

/-- A formula in which the cell `A1` stands behind `k + 1` minus signs. -/
def negated (k : Nat) : String :=
  String.ofList ('=' :: (List.replicate (k + 1) '-' ++ ['A', '1']))

theorem normalizeChars_negated (k : Nat) :
    normalizeChars (negated k).toList = List.replicate (k + 1) '-' ++ ['A', '1'] := by
  rw [negated, String.toList_ofList]
  simp only [normalizeChars]
  rw [List.filter_eq_self]
  have hname : ∀ c ∈ ['A', '1'], (!Text.isBlank c && c != '$') = true := by
    rintro c (_ | ⟨_, _ | ⟨_, ⟨⟩⟩⟩) <;> rfl
  intro c hc
  rcases List.mem_append.mp hc with hc | hc
  · rw [List.eq_of_mem_replicate hc]
    rfl
  · exact hname c hc

theorem segments_negated (k : Nat) : (ofRaw (negated k)).segments =
    [.literal (String.ofList (List.replicate (k + 1) '-')), .reference "A1" (.ok ⟨0, 0⟩)] := by
  have hsigns : ∀ c ∈ List.replicate (k + 1) '-', (!c.isUpper) = true := by
    intro c hc
    rw [List.eq_of_mem_replicate hc]
    rfl
  have hhead : ∀ c ∈ ['A', '1'].head?, (!c.isUpper) = false := by
    rintro _ ⟨⟩
    rfl
  have hsplit : Segment.split ('-' :: (List.replicate k '-' ++ ['A', '1'])) =
      (.literal (String.ofList (List.replicate (k + 1) '-')), ['A', '1']) := by
    have htake := takeWhile_append_of_all hsigns hhead
    have hdrop := dropWhile_append_of_all hsigns hhead
    rw [List.replicate_succ, List.cons_append] at htake hdrop
    have hletters :
        List.takeWhile Char.isUpper ('-' :: (List.replicate k '-' ++ ['A', '1'])) = [] := rfl
    simp only [Segment.split, hletters, List.isEmpty_nil, if_true, htake, hdrop,
      List.replicate_succ]
  have hreference : Segment.split ['A', '1'] = (.reference "A1" (.ok ⟨0, 0⟩), []) := rfl
  rw [ofRaw, normalize, normalizeChars_negated, String.toList_ofList]
  change Segment.ofCharsOnto [] ('-' :: (List.replicate k '-' ++ ['A', '1'])) = _
  rw [Segment.ofCharsOnto_cons, hsplit, Segment.ofCharsOnto_cons, hreference, Segment.ofCharsOnto]
  rfl

theorem ofChars?_signs (k : Nat) :
    Token.ofChars? (List.replicate k '-') = some (List.replicate k .minus) := by
  induction k with
  | zero => exact Token.ofChars?_nil
  | succ k ih => rw [List.replicate_succ, Token.ofChars?_symbol rfl, ih]; rfl

theorem wordsOf_negated (k : Nat) (a : α) : wordsOf (ofRaw (negated k)).segments [a] =
    .ok ((List.replicate (k + 1) .minus).map .token ++ [.operand a]) := by
  rw [segments_negated, wordsOf, Token.mapError_ofText, String.toList_ofList, ofChars?_signs]
  change Except.ok
    ((List.replicate (k + 1) Token.minus ++ [Token.eof]).dropLast.map Word.token ++ _) = _
  rw [List.dropLast_concat]

/-- An expression behind `k` minus signs. -/
def behindSigns : Nat → Expr → Expr
  | 0, e => e
  | k + 1, e => .signed .minus (behindSigns k e)

theorem nesting_behindSigns (k : Nat) (e : Expr) : (behindSigns k e).nesting = e.nesting + k := by
  induction k with
  | zero => rfl
  | succ k ih => rw [behindSigns, Expr.nesting_signed, ih]; rfl

theorem tokens_behindSigns (k : Nat) (e : Expr) :
    (behindSigns k e).tokens = List.replicate k .minus ++ e.tokens := by
  induction k with
  | zero => rfl
  | succ k ih => rw [behindSigns, Expr.tokens, ih]; rfl

theorem reads_behindSigns {e : Expr} (h : e.Reads) (k : Nat) : (behindSigns k e).Reads := by
  induction k with
  | zero => exact h
  | succ k ih => exact ih.signed .minus

theorem readWith_negated (σ : Filling α) (k : Nat) (a : α) :
    (ofRaw (negated k)).readWith σ [a] =
      if (σ.expr a).nesting + (k + 1) ≤ 256 then .ok (behindSigns (k + 1) (σ.expr a))
      else .error .malformed := by
  have hparse := (reads_behindSigns (σ.isOperand a).reads (k + 1)).parse.mapError_outcome
  rw [nesting_behindSigns, tokens_behindSigns] at hparse
  rw [readWith_of_wordsOf σ (wordsOf_negated k a), σ.tokens_append, σ.tokens_map_token,
    Filling.tokens, Filling.tokens, List.append_nil, hparse]
  rfl

theorem referenceError?_negated (k : Nat) : (ofRaw (negated k)).referenceError? = none := by
  rw [referenceError?, segments_negated]
  rfl

theorem references_negated (k : Nat) : (ofRaw (negated k)).references = [⟨0, 0⟩] := by
  rw [references, segments_negated]
  rfl

/-- The value one, which is written without a sign. -/
def positiveOperand : Float := Float.ofBits 0x3ff0000000000000

/-- The value minus one, which is written with a sign of its own. -/
def negativeOperand : Float := Float.ofBits 0xbff0000000000000

theorem isFinite_positiveOperand : positiveOperand.isFinite = true := by decide +kernel

theorem isFinite_negativeOperand : negativeOperand.isFinite = true := by decide +kernel

/-! ## Computed values -/

/-- Putting the values of the references into the text keeps the meaning of a formula, unless an
operand stands in more than 254 parentheses and signs. -/
theorem evalWith_eq_meaning (herror : (ofRaw raw).referenceError? = none)
    (hlength : values.length = (ofRaw raw).references.length)
    (hfinite : ∀ x ∈ values, x.isFinite = true)
    (hnesting : ∀ e, (ofRaw raw).reading values = .ok e → e.nesting ≤ 254) :
    (ofRaw raw).evalWith values = (ofRaw raw).meaning values := by
  rw [evalWith_eq herror hlength hfinite, meaning]
  rw [reading] at hnesting ⊢
  -- Only finite numbers are written so that they are read again.
  have hvalues : (values.attachWith (·.isFinite = true) hfinite).map Subtype.val = values :=
    List.attachWith_map_subtype_val hfinite
  rw [← hvalues, readWith_map] at hnesting ⊢
  rw [readWith_map]
  rcases readWith_cases (ofRaw raw) (values.attachWith (·.isFinite = true) hfinite) with
    ⟨error, hfail⟩ | ⟨e, he⟩
  · rw [hfail, hfail]
  have hdeeper := e.nesting_fill_le (atom.comap Subtype.val) (written.comap Subtype.val) 0
    fun _ => Nat.zero_le _
  have hlimit : Expr.maxNesting = 256 := rfl
  rw [he] at hnesting
  rw [he, he]
  by_cases hfits : (e.fill (atom.comap Subtype.val)).nesting ≤ Expr.maxNesting
  · have hshallow := hnesting _ (if_pos hfits)
    have hwritten := e.nesting_fill_le (written.comap Subtype.val) (atom.comap Subtype.val) 2
      fun x => nesting_written_le x.val
    have heval := e.eval_fill (written.comap Subtype.val) (atom.comap Subtype.val)
      fun x => Expr.eval_literal x.property
    rw [if_pos hfits, if_pos (by omega)]
    exact congrArg (Except.mapError ExprError.toCellError) heval
  · rw [if_neg hfits, if_neg (by omega)]

/-- Behind 254 minus signs even a number with a sign of its own is not too deep. -/
theorem evalWith_negated_eq_meaning :
    (ofRaw (negated 253)).evalWith [negativeOperand] =
      (ofRaw (negated 253)).meaning [negativeOperand] := by
  refine evalWith_eq_meaning (referenceError?_negated 253) ?_
    (List.forall_mem_singleton.mpr isFinite_negativeOperand) ?_
  · rw [references_negated]
    rfl
  · intro e he
    rw [reading, readWith_negated, if_pos (by decide)] at he
    cases he
    rw [nesting_behindSigns]
    decide

end LiveSheet.Formula
