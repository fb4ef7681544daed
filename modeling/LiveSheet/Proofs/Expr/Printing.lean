import LiveSheet.Proofs.Decimal.Plain
import LiveSheet.Proofs.Decimal.Unsigned
import LiveSheet.Proofs.Expr.Derivation

/-! # Expressions that are printed and read again

An expression is printed with the parentheses that are its groups and no others. If it was read from
a text, it needs no others: its tokens are the words of that text, and words have one tree. The
printed text falls into these tokens because a number is never printed next to another, and because
no number that was read has a sign. -/

namespace LiveSheet

open NumberLexeme Token

namespace Token

/-- The token is printed as one lexeme: if it is a number, it is finite and has no sign. -/
def Plain : Token → Prop
  | number x => x.isFinite = true ∧ Decimal.Style.isNegative x = false
  | _ => True

/-- The tokens as they are printed, one after the other. -/
def printed (tokens : List Token) : List Char :=
  tokens.flatMap (·.text.toList)

@[simp] theorem printed_nil : printed [] = [] := rfl

@[simp] theorem printed_cons (token : Token) (tokens : List Token) :
    printed (token :: tokens) = token.text.toList ++ printed tokens := rfl

@[simp] theorem printed_append (first rest : List Token) :
    printed (first ++ rest) = printed first ++ printed rest :=
  List.flatMap_append

theorem ofChars?_text_number {x : Float} (hx : (number x).Plain) {rest : List Char}
    (hrest : ∀ c ∈ rest.head?, startsWith c = false) :
    ofChars? ((number x).text.toList ++ rest) = (ofChars? rest).map (number x :: ·) := by
  obtain ⟨hfinite, hpos⟩ := hx
  have hread := ofChars?_operandText hfinite hrest
  rw [Formula.operandText, if_pos hfinite, Expr.literal, hpos,
    Decimal.abs_of_not_negative hfinite hpos] at hread
  exact hread

/-- An operator is printed as a character that is a token by itself. -/
theorem exists_symbol_op (op : BinOp) : ∃ c, op.token.text.toList = [c] ∧
    ofSymbol? c = some op.token ∧ startsWith c = false := by
  cases op <;> exact ⟨_, rfl, rfl, rfl⟩

theorem exists_symbol_sign (sign : Sign) :
    ∃ c, sign.token.text.toList = [c] ∧ ofSymbol? c = some sign.token := by
  cases sign <;> exact ⟨_, rfl, rfl⟩

theorem ofSymbol?_ne_number {c : Char} {x : Float} : ofSymbol? c ≠ some (number x) := by
  unfold ofSymbol?
  split <;> rintro ⟨⟩

/-- No number that is read from a text has a sign. -/
theorem isNegative_of_mem_tokensOnto {x : Float} {done tokens : List Token} {text : List Char}
    {position : Nat} (h : (Cursor.tokensOnto done text position).1 = .ok tokens)
    (hx : number x ∈ tokens) : number x ∈ done ∨ Decimal.Style.isNegative x = false := by
  fun_induction Cursor.tokensOnto done text position with
  | case1 =>
      cases h
      exact .inl (by simpa using hx)
  | case2 _ _ _ _ _ ih => exact ih h
  | case3 _ _ _ _ _ token hsymbol ih =>
      have hother : number x ≠ token := by
        rintro rfl
        exact ofSymbol?_ne_number hsymbol
      exact (ih h).imp_left fun hmem => (List.mem_cons.mp hmem).resolve_left hother
  | case4 _ _ _ _ _ _ _ _ _ _ _ _ ih =>
      rcases ih h with hmem | hpos
      · rcases List.mem_cons.mp hmem with heq | hmem
        · cases heq
          exact .inr (Decimal.isNegative_toFloat _)
        · exact .inl hmem
      · exact .inr hpos
  | case5 => cases h
  | case6 => cases h

theorem isNegative_of_mem_ofText {x : Float} {text : String} {tokens : List Token}
    (h : ofText text = .ok tokens) (hx : number x ∈ tokens) :
    Decimal.Style.isNegative x = false :=
  (isNegative_of_mem_tokensOnto h hx).resolve_left List.not_mem_nil

end Token

namespace Expr

theorem tokens_ofChain (first : Expr) (parts : List (BinOp × Expr)) :
    (ofChain first parts).tokens = first.tokens ++ chainTokens parts := by
  cases parts with
  | nil => exact (List.append_nil _).symm
  | cons part parts => rfl

theorem toList_text (e : Expr) : e.text.toList = printed e.tokens := by
  rw [text, String.toList_join, List.flatMap_map, printed]

/-! ## The printed text falls into the tokens -/

/-- A part of a chain is printed before an operator, or before what comes after the chain. -/
theorem startsWith_head?_chain (parts : List (BinOp × Expr)) {rest : List Char}
    (hrest : ∀ c ∈ rest.head?, startsWith c = false) :
    ∀ c ∈ (printed (chainTokens parts) ++ rest).head?, startsWith c = false := by
  cases parts with
  | nil => exact hrest
  | cons part parts =>
      obtain ⟨op, operand⟩ := part
      obtain ⟨c, hc, -, hstart⟩ := exists_symbol_op op
      rw [chainTokens, printed_cons, hc]
      rintro _ ⟨⟩
      exact hstart

mutual

theorem ofChars?_printed : ∀ (e : Expr), (∀ t ∈ e.tokens, t.Plain) → ∀ rest : List Char,
    (∀ c ∈ rest.head?, startsWith c = false) →
    ofChars? (printed e.tokens ++ rest) = (ofChars? rest).map (e.tokens ++ ·)
  | number x, hplain, rest, hrest => by
      rw [tokens, printed_cons, printed_nil, List.append_nil]
      exact ofChars?_text_number (hplain _ List.mem_cons_self) hrest
  | group e, hplain, rest, hrest => by
      have hclose : ofChars? (')' :: rest) = (ofChars? rest).map (.closeParen :: ·) :=
        ofChars?_symbol rfl
      have hinner := ofChars?_printed e (fun t ht => hplain t (by simp [tokens, ht]))
        (')' :: rest) (by rintro _ ⟨⟩; rfl)
      have hopen : ofChars? ('(' :: (printed e.tokens ++ ')' :: rest)) =
          (ofChars? (printed e.tokens ++ ')' :: rest)).map (.openParen :: ·) :=
        ofChars?_symbol rfl
      rw [hinner, hclose] at hopen
      simpa [tokens, Token.text, Function.comp_def] using hopen
  | signed sign e, hplain, rest, hrest => by
      have hread := ofChars?_printed e (fun t ht => hplain t (by simp [tokens, ht])) rest hrest
      obtain ⟨c, hc, hsymbol⟩ := exists_symbol_sign sign
      rw [tokens, printed_cons, hc, List.append_assoc, List.singleton_append,
        ofChars?_symbol hsymbol, hread, Option.map_map]
      rfl
  | chain first parts, hplain, rest, hrest => by
      have hfirst := ofChars?_printed first (fun t ht => hplain t (by simp [tokens, ht])) _
        (startsWith_head?_chain parts hrest)
      have hparts := ofChars?_printed_chain parts
        (fun t ht => hplain t (by simp [tokens, ht])) rest hrest
      rw [tokens, printed_append, List.append_assoc, hfirst, hparts, Option.map_map]
      simp [Function.comp_def]

theorem ofChars?_printed_chain : ∀ (parts : List (BinOp × Expr)),
    (∀ t ∈ chainTokens parts, t.Plain) → ∀ rest : List Char,
    (∀ c ∈ rest.head?, startsWith c = false) →
    ofChars? (printed (chainTokens parts) ++ rest) = (ofChars? rest).map (chainTokens parts ++ ·)
  | [], _, rest, _ => by simp [chainTokens]
  | (op, e) :: parts, hplain, rest, hrest => by
      have hright := ofChars?_printed e (fun t ht => hplain t (by simp [chainTokens, ht])) _
        (startsWith_head?_chain parts hrest)
      have hparts := ofChars?_printed_chain parts
        (fun t ht => hplain t (by simp [chainTokens, ht])) rest hrest
      obtain ⟨c, hc, hsymbol, -⟩ := exists_symbol_op op
      rw [chainTokens, printed_cons, printed_append, hc, List.append_assoc, List.append_assoc,
        List.singleton_append, ofChars?_symbol hsymbol, hright, hparts, Option.map_map,
        Option.map_map]
      simp [Function.comp_def]

end

/-- An expression that is printed is read as its tokens. -/
theorem ofText_tokens {e : Expr} (hplain : ∀ t ∈ e.tokens, t.Plain) :
    Token.ofText e.text = .ok (e.tokens ++ [.eof]) := by
  have hread := ofChars?_printed e hplain [] (by rintro _ ⟨⟩)
  rw [List.append_nil, ofChars?_nil, Option.map_some, List.append_nil] at hread
  exact ofText_of_ofChars? (by rw [toList_text, hread])

end Expr

/-! ## The tokens have the tree -/

namespace Grammar

variable {ops : List BinOp} {ts : List Token} {e : Expr}

theorem Chain.tokens_eq (h : Chain ops (fun ts e => e.tokens = ts) ts e) : e.tokens = ts := by
  obtain ⟨hfirst, htail⟩ := h
  rw [Expr.tokens_ofChain, hfirst, List.append_cancel_left_eq]
  induction htail with
  | nil => rfl
  | cons _ hright _ ih => rw [Expr.chainTokens, hright, ih]

/-- The tokens of a tree are the words that have it. -/
theorem Sentence.tokens_eq (h : Sentence ts e) : e.tokens = ts := by
  have hoperand : ∀ ts e, Operand ts e → e.tokens = ts := by
    intro ts e he
    refine he.induct (motive := fun ts e => e.tokens = ts) ?_ ?_ ?_
    · exact fun x => rfl
    · intro sign ts e ih
      rw [Expr.tokens, ih]
    · intro ts e ih
      rw [Expr.tokens, (ih.mono fun _ _ => Chain.tokens_eq).tokens_eq, List.cons_append]
  exact (h.mono fun _ _ he => (he.mono hoperand).tokens_eq).tokens_eq

end Grammar

namespace Expr

open Grammar

variable {text : String} {e : Expr}

/-- An expression is read from a text if the words of the text have it as their tree. -/
theorem exists_sentence_of_ofText (h : ofText text = .ok e) : ∃ tokens,
    Token.ofText text = .ok tokens ∧ Sentence (words tokens) e ∧ e.nesting ≤ maxNesting := by
  rw [ofText] at h
  cases htokens : Token.ofText text with
  | error err =>
      rw [htokens] at h
      cases h
  | ok tokens =>
      rw [htokens] at h
      exact ⟨tokens, rfl, (sound_parse tokens).good e h⟩

/-- An expression that was read from a text, with numbers that are all finite, is printed as a text
that is read as the same expression. -/
theorem ofText_text (he : ofText text = .ok e)
    (hfinite : ∀ x, .number x ∈ e.tokens → x.isFinite = true) : ofText e.text = .ok e := by
  obtain ⟨tokens, htokens, hsentence, hnesting⟩ := exists_sentence_of_ofText he
  have hplain : ∀ t ∈ e.tokens, t.Plain := by
    intro t ht
    cases t with
    | number x =>
        refine ⟨hfinite x ht, isNegative_of_mem_ofText htokens ?_⟩
        rw [hsentence.tokens_eq] at ht
        exact (List.takeWhile_sublist _).subset ht
    | _ => trivial
  have hwords : words (e.tokens ++ [.eof]) = e.tokens :=
    words_append (hsentence.tokens_eq ▸ hsentence.eof_not_mem) (by rintro _ ⟨⟩; rfl)
  have hagain : Sentence (words (e.tokens ++ [.eof])) e := by
    rwa [hwords, hsentence.tokens_eq]
  rw [ofText, ofText_tokens hplain]
  exact parse_of_sentence hagain hnesting

/-- A number is printed with a digit before its point, whether or not it was written with one. -/
theorem ofText_text_of_bare_point : ∃ e, ofText "-(1+2)*.5" = .ok e ∧ e.text = "-(1+2)*0.5" ∧
    ofText e.text = .ok e := by
  have htokens : Token.ofText "-(1+2)*.5" = .ok [.minus, .openParen, .number 1, .plus, .number 2,
      .closeParen, .times, .number 0.5, .eof] := by
    decide +kernel
  have hread : ofText "-(1+2)*.5" = .ok (.chain
      (.signed .minus (.group (.chain (.number 1) [(.add, .number 2)])))
      [(.mul, .number 0.5)]) := by
    rw [ofText, htokens]
    with_unfolding_all rfl
  refine ⟨_, hread, by decide +kernel, ofText_text hread fun x hx => ?_⟩
  simp only [tokens, chainTokens, Sign.token, BinOp.token, List.mem_append, List.mem_cons,
    List.not_mem_nil, Token.number.injEq, reduceCtorEq, or_false, false_or] at hx
  rcases hx with (rfl | rfl) | rfl <;> decide +kernel

end Expr

end LiveSheet
