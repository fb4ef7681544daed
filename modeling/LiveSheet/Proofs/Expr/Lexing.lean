import LiveSheet.Expr.Lexeme
import Mathlib.Data.List.TakeWhile

/-! # The tokens of a text, piece by piece

Where a text is cut makes no difference to its tokens as long as no number stands across the
cut. So the tokens of a text that was put together from pieces are the tokens of the pieces, and
a number that was written is read as a number again. -/

namespace LiveSheet

open NumberLexeme

namespace Token

/-- The tokens of a text without its end, if the text falls into tokens. -/
def ofChars? (text : List Char) : Option (List Token) :=
  (Cursor.tokensOnto [] text 0).1.toOption.map List.dropLast

end Token

namespace Cursor

open Token

/-- The tokens that are read do not depend on those read before, nor on the position. -/
theorem toOption_tokensOnto (done : List Token) (rest : List Char) (position : Nat) :
    (tokensOnto done rest position).1.toOption =
      (ofChars? rest).map fun tokens => done.reverse ++ (tokens ++ [.eof]) := by
  -- Reading on after one more token, on either side.
  have hread : ∀ {token : Token} {after : List Char},
      (∀ done position, (tokensOnto done after position).1.toOption =
        (ofChars? after).map fun tokens => done.reverse ++ (tokens ++ [.eof])) →
      ∀ position next, (tokensOnto (token :: done) after position).1.toOption =
        ((tokensOnto [token] after next).1.toOption.map List.dropLast).map
          fun tokens => done.reverse ++ (tokens ++ [.eof]) := by
    intro token after h position next
    rw [h, h, Option.map_map, Option.map_map]
    congr 1
    funext tokens
    simp only [Function.comp_apply, List.reverse_cons, List.reverse_nil, List.nil_append,
      ← List.append_assoc, List.dropLast_concat]
  cases rest with
  | nil =>
      rw [ofChars?, tokensOnto, tokensOnto]
      simp [Except.toOption]
  | cons c cs =>
      have hcs := fun done position => toOption_tokensOnto done cs position
      rw [ofChars?, tokensOnto, tokensOnto]
      split
      · rw [hcs, hcs, Option.map_map, Option.map_map]
        congr 1
        funext tokens
        simp
      · split
        · exact hread hcs _ _
        · split
          · next h =>
            have := split_length_lt c cs h
            have hafter := fun done position =>
              toOption_tokensOnto done (split (c :: cs)).2 position
            simp only
            split
            · exact hread hafter _ _
            · rfl
          · rfl
termination_by rest.length
decreasing_by
  · exact Nat.lt_succ_self _
  · assumption

/-- Whatever stops the reading of tokens, the text is malformed. -/
theorem malformed_of_tokensOnto {done : List Token} {rest : List Char} {position : Nat}
    {e : ExprError} (h : (tokensOnto done rest position).1 = .error e) :
    e.toCellError = .malformed := by
  fun_induction tokensOnto done rest position with
  | case1 => cases h
  | case2 _ _ _ _ _ ih => exact ih h
  | case3 _ _ _ _ _ _ _ ih => exact ih h
  | case4 _ _ _ _ _ _ _ _ _ _ _ _ ih => exact ih h
  | case5 => cases h; rfl
  | case6 => cases h; rfl

end Cursor

namespace Token

theorem ofChars?_nil : ofChars? [] = some [] := by
  rw [ofChars?, Cursor.tokensOnto]
  rfl

/-- How the first characters of a text decide what it falls into. -/
theorem ofChars?_cons (c : Char) (cs : List Char) : ofChars? (c :: cs) =
    if Text.isBlank c then ofChars? cs
    else match ofSymbol? c with
    | some token => (ofChars? cs).map (token :: ·)
    | none =>
        if startsWith c then
          if (split (c :: cs)).1.hasDigit then
            (ofChars? (split (c :: cs)).2).map (.number (split (c :: cs)).1.value :: ·)
          else none
        else none := by
  have hread : ∀ (token : Token) (after : List Char) (position : Nat),
      (Cursor.tokensOnto [token] after position).1.toOption.map List.dropLast =
        (ofChars? after).map (token :: ·) := by
    intro token after position
    rw [Cursor.toOption_tokensOnto, Option.map_map]
    congr 1
    funext tokens
    simp only [Function.comp_apply, List.reverse_cons, List.reverse_nil, List.nil_append,
      ← List.append_assoc, List.dropLast_concat, List.singleton_append]
  conv =>
    lhs
    rw [ofChars?, Cursor.tokensOnto]
  split
  · rw [Cursor.toOption_tokensOnto, Option.map_map]
    simp [Function.comp_def]
  · cases ofSymbol? c with
    | some token => exact hread _ _ _
    | none =>
        simp only
        split
        · split
          · exact hread _ _ _
          · rfl
        · rfl

variable {c : Char} {cs first rest : List Char}

theorem ofChars?_symbol {token : Token} (h : ofSymbol? c = some token) :
    ofChars? (c :: cs) = (ofChars? cs).map (token :: ·) := by
  have hblank : ¬Text.isBlank c = true := by
    unfold ofSymbol? at h
    split at h <;> first | decide | cases h
  rw [ofChars?_cons, if_neg hblank, h]

theorem startsWith_eq_true_iff : startsWith c = true ↔ c.isDigit = true ∨ c = '.' := by
  rw [startsWith, Bool.or_eq_true, beq_iff_eq]

theorem not_isBlank_of_startsWith (h : startsWith c = true) : Text.isBlank c = false := by
  have hrange : 46 ≤ c.toNat ∧ c.toNat ≤ 57 := by
    rcases startsWith_eq_true_iff.mp h with hdigit | rfl
    · simp only [Char.isDigit, Bool.and_eq_true, decide_eq_true_eq, UInt32.le_iff_toNat_le]
        at hdigit
      exact ⟨Nat.le_trans (by decide) hdigit.1, hdigit.2⟩
    · decide
  simp only [Text.isBlank, Bool.or_eq_false_iff, Bool.and_eq_false_iff, beq_eq_false_iff_ne,
    decide_eq_false_iff_not]
  omega

theorem ofChars?_offence (hblank : Text.isBlank c = false) (hsymbol : ofSymbol? c = none)
    (hstart : startsWith c = false) : ofChars? (c :: cs) = none := by
  rw [ofChars?_cons, hsymbol]
  simp only [hblank, hstart, Bool.false_eq_true, if_false]

theorem ofChars?_number (h : startsWith c = true) : ofChars? (c :: cs) =
    if (split (c :: cs)).1.hasDigit then
      (ofChars? (split (c :: cs)).2).map (.number (split (c :: cs)).1.value :: ·)
    else none := by
  have hsymbol : ofSymbol? c = none := by
    unfold ofSymbol?
    split <;> first | rfl | cases h
  rw [ofChars?_cons, not_isBlank_of_startsWith h, hsymbol]
  simp only [h, Bool.false_eq_true, if_false, if_true]

end Token

/-! ## Runs of characters -/

section Runs

variable {p : Char → Bool} {first rest : List Char}

/-- A run of characters ends where a character of another kind stands. -/
theorem takeWhile_append_of_head (h : ∀ c ∈ rest.head?, p c = false) :
    (first ++ rest).takeWhile p = first.takeWhile p := by
  induction first with
  | nil =>
      cases rest with
      | nil => rfl
      | cons c cs => simp [h c rfl]
  | cons c cs ih => rw [List.cons_append, List.takeWhile_cons, List.takeWhile_cons, ih]

theorem dropWhile_append_of_head (h : ∀ c ∈ rest.head?, p c = false) :
    (first ++ rest).dropWhile p = first.dropWhile p ++ rest := by
  induction first with
  | nil =>
      cases rest with
      | nil => rfl
      | cons c cs => simp [h c rfl]
  | cons c cs ih =>
      rw [List.cons_append, List.dropWhile_cons, List.dropWhile_cons, ih]
      split <;> rfl

theorem eq_false_of_head?_dropWhile : ∀ c ∈ (rest.dropWhile p).head?, p c = false := by
  intro c hc
  have hnot := List.head?_dropWhile_not p rest
  rw [Option.mem_def.mp hc] at hnot
  simpa using hnot

theorem takeWhile_append_of_all (hfirst : ∀ c ∈ first, p c = true)
    (h : ∀ c ∈ rest.head?, p c = false) : (first ++ rest).takeWhile p = first := by
  rw [takeWhile_append_of_head h, List.takeWhile_eq_self_iff.mpr hfirst]

theorem dropWhile_append_of_all (hfirst : ∀ c ∈ first, p c = true)
    (h : ∀ c ∈ rest.head?, p c = false) : (first ++ rest).dropWhile p = rest := by
  rw [dropWhile_append_of_head h, List.dropWhile_eq_nil_iff.mpr hfirst, List.nil_append]

end Runs

namespace NumberLexeme

variable {rest : List Char}

/-- A number ends where a character stands that belongs to no number. -/
theorem split_append (h : ∀ c ∈ rest.head?, startsWith c = false) (first : List Char) :
    split (first ++ rest) = ((split first).1, (split first).2 ++ rest) := by
  have hdigit : ∀ c ∈ rest.head?, c.isDigit = false := fun c hc =>
    (Bool.or_eq_false_iff.mp (h c hc)).1
  unfold split
  rw [takeWhile_append_of_head hdigit, dropWhile_append_of_head hdigit]
  cases first.dropWhile Char.isDigit with
  | nil =>
      cases rest with
      | nil => rfl
      | cons c cs =>
          have hpoint : c ≠ '.' := by
            have := (Bool.or_eq_false_iff.mp (h c rfl)).2
            exact beq_eq_false_iff_ne.mp this
          simp only [List.nil_append]
          split
          · next heq => cases heq; exact (hpoint rfl).elim
          · rfl
  | cons c cs =>
      simp only [List.cons_append]
      by_cases hpoint : c = '.'
      · subst hpoint
        simp only [takeWhile_append_of_head hdigit, dropWhile_append_of_head hdigit]
      · split
        · next heq => cases heq; exact (hpoint rfl).elim
        · split
          · next heq => cases heq; exact (hpoint rfl).elim
          · rfl

/-- The lexeme is written with digits, and has one. -/
structure Written (n : NumberLexeme) : Prop where
  isDigit_whole : ∀ c ∈ n.whole, c.isDigit = true
  isDigit_fraction : ∀ c ∈ n.fraction.getD [], c.isDigit = true
  hasDigit : n.hasDigit = true

theorem split_chars {n : NumberLexeme} (hn : n.Written)
    (h : ∀ c ∈ rest.head?, startsWith c = false) : split (n.chars ++ rest) = (n, rest) := by
  have hdigit : ∀ c ∈ rest.head?, c.isDigit = false := fun c hc =>
    (Bool.or_eq_false_iff.mp (h c hc)).1
  rw [split_append h]
  obtain ⟨whole, fraction⟩ := n
  have hwhole := hn.isDigit_whole
  cases fraction with
  | none =>
      simp only [chars, split, List.takeWhile_eq_self_iff.mpr hwhole,
        List.dropWhile_eq_nil_iff.mpr hwhole, List.nil_append]
  | some ds =>
      have htake := List.takeWhile_eq_self_iff.mpr hn.isDigit_fraction
      have hdrop := List.dropWhile_eq_nil_iff.mpr hn.isDigit_fraction
      simp only [Option.getD_some] at htake hdrop
      have hpoint : ∀ c ∈ ('.' :: ds).head?, c.isDigit = false := by
        rintro c ⟨⟩
        rfl
      simp only [chars, split, takeWhile_append_of_all hwhole hpoint,
        dropWhile_append_of_all hwhole hpoint, htake, hdrop, List.nil_append]

theorem exists_cons_chars {n : NumberLexeme} (hn : n.Written) :
    ∃ c cs, n.chars = c :: cs ∧ startsWith c = true := by
  obtain ⟨whole, fraction⟩ := n
  cases whole with
  | cons c cs =>
      have hc := Token.startsWith_eq_true_iff.mpr
        (.inl (hn.isDigit_whole c List.mem_cons_self))
      cases fraction with
      | none => exact ⟨c, cs, rfl, hc⟩
      | some ds => exact ⟨c, cs ++ '.' :: ds, rfl, hc⟩
  | nil =>
      cases fraction with
      | none => exact absurd hn.hasDigit (by decide)
      | some ds => exact ⟨'.', ds, rfl, rfl⟩

end NumberLexeme

namespace Token

/-- A written number is read as its value. -/
theorem ofChars?_chars {n : NumberLexeme} (hn : n.Written) (rest : List Char)
    (hrest : ∀ c ∈ rest.head?, startsWith c = false) :
    ofChars? (n.chars ++ rest) = (ofChars? rest).map (.number n.value :: ·) := by
  have hsplit := split_chars hn hrest
  obtain ⟨c, cs, hchars, hc⟩ := exists_cons_chars hn
  rw [hchars, List.cons_append] at hsplit ⊢
  rw [ofChars?_number hc, hsplit]
  exact if_pos hn.hasDigit

/-- Reading on from a character that belongs to no number. -/
theorem ofChars?_append (first : List Char) {rest : List Char}
    (hrest : ∀ c ∈ rest.head?, startsWith c = false) : ofChars? (first ++ rest) =
      (ofChars? first).bind fun tokens => (ofChars? rest).map (tokens ++ ·) := by
  cases first with
  | nil => simp [ofChars?_nil]
  | cons c cs =>
      have hcs := ofChars?_append cs hrest
      rw [List.cons_append, ofChars?_cons, ofChars?_cons, ← List.cons_append,
        split_append hrest]
      split
      · exact hcs
      · cases ofSymbol? c with
        | some token =>
            simp only [hcs]
            cases ofChars? cs <;> simp [Function.comp_def]
        | none =>
            simp only
            split
            · next h =>
              have := split_length_lt c cs h
              have hafter := ofChars?_append (split (c :: cs)).2 hrest
              split
              · rw [hafter]
                cases ofChars? (split (c :: cs)).2 <;> simp [Function.comp_def]
              · rfl
            · rfl
termination_by first.length
decreasing_by
  · exact Nat.lt_succ_self _
  · assumption

/-- The tokens of a text, or the error that its cell gets. -/
theorem mapError_ofText (text : String) : (ofText text).mapError ExprError.toCellError =
    match ofChars? text.toList with
    | some tokens => .ok (tokens ++ [.eof])
    | none => .error .malformed := by
  have htokens : (ofText text).toOption = (ofChars? text.toList).map (· ++ [.eof]) := by
    change (Cursor.tokensOnto [] text.toList 0).1.toOption = _
    simpa using Cursor.toOption_tokensOnto [] text.toList 0
  cases htext : ofText text with
  | ok tokens =>
      rw [htext] at htokens
      obtain ⟨tokens', htokens', rfl⟩ := Option.map_eq_some_iff.mp htokens.symm
      rw [htokens']
      rfl
  | error e =>
      rw [htext] at htokens
      rw [Option.map_eq_none_iff.mp htokens.symm]
      exact congrArg Except.error (Cursor.malformed_of_tokensOnto htext)

theorem ofText_of_ofChars? {text : String} {tokens : List Token}
    (h : ofChars? text.toList = some tokens) : ofText text = .ok (tokens ++ [.eof]) := by
  have hmap := mapError_ofText text
  rw [h] at hmap
  cases htext : ofText text with
  | error e => rw [htext] at hmap; cases hmap
  | ok tokens' =>
      rw [htext] at hmap
      cases hmap
      rfl

end Token

end LiveSheet
