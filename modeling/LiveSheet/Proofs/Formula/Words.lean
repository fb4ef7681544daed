import LiveSheet.Formula.Memo
import LiveSheet.Proofs.Expr.Opening
import LiveSheet.Proofs.Formula.Pieces

/-! # The words of a formula

A formula can be read without putting numbers into its text: the text between two references
falls into tokens, and every reference is one more word, an operand that is left open. Putting
the number of a reference into the text, in parentheses, gives the same words: no character of
the number and no parenthesis becomes part of what stands beside it. -/

namespace LiveSheet

variable {α β : Type}

theorem Token.startsWith_of_isUpper {c : Char} (h : c.isUpper = true) :
    NumberLexeme.startsWith c = false := by
  rw [Bool.eq_false_iff, ne_eq, Token.startsWith_eq_true_iff]
  have hupper := Column.isUpper_iff.mp h
  rintro (hdigit | rfl)
  · rw [Numeral.isDigit_iff] at hdigit
    omega
  · cases h

/-- A capital letter begins no token. -/
theorem Token.ofChars?_of_isUpper {c : Char} {cs : List Char} (h : c.isUpper = true) :
    ofChars? (c :: cs) = none := by
  refine Token.ofChars?_offence ?_ ?_ (startsWith_of_isUpper h)
  · have hupper := Column.isUpper_iff.mp h
    simp only [Text.isBlank, Bool.or_eq_false_iff, Bool.and_eq_false_iff, beq_eq_false_iff_ne,
      decide_eq_false_iff_not]
    omega
  · unfold ofSymbol?
    split <;> first | rfl | cases h

namespace Formula

/-- The words of the pieces of a formula, in which references stand for the given operands, one
for each reference in order of appearance. Two pieces of literal text meet at a capital letter,
which belongs to no token, so reading them one by one cuts no token in two. -/
def wordsOf : List Segment → List α → Except CellError (List (Word α))
  | [], _ => .ok []
  | .literal text :: rest, as => do
      let tokens ← (Token.ofText text).mapError ExprError.toCellError
      let words ← wordsOf rest as
      return tokens.dropLast.map .token ++ words
  | .reference _ (.error e) :: _, _ => .error e
  | .reference _ (.ok _) :: _, [] => .error .invalidReference
  | .reference _ (.ok _) :: rest, a :: as => do
      let words ← wordsOf rest as
      return .operand a :: words

theorem wordsOf_map (f : α → β) (segments : List Segment) (as : List α) :
    wordsOf segments (as.map f) = (wordsOf segments as).map (List.map (Word.map f)) := by
  fun_induction wordsOf segments as with
  | case1 => rfl
  | case2 text rest as ih =>
      rw [wordsOf, ih]
      cases (Token.ofText text).mapError ExprError.toCellError with
      | error e => rfl
      | ok tokens =>
          cases wordsOf rest as with
          | error e => rfl
          | ok words =>
              have hmap : Word.map f ∘ Word.token = Word.token := rfl
              simp [Except.map, bind, Except.bind, pure, Except.pure, hmap]
  | case3 => rfl
  | case4 => rfl
  | case5 _ _ rest a as ih =>
      rw [List.map_cons, wordsOf, ih]
      cases wordsOf rest as <;> rfl

/-- A number in parentheses, as it is put in place of a reference. -/
def written : Filling Float where
  expr x := .group (.literal x)
  isOperand x := by
    refine Expr.Reads.isOperand_group ?_
    unfold Expr.literal
    split
    · exact (Expr.reads_number _).signed .minus
    · exact Expr.reads_number _

/-- Putting numbers into the pieces of a text gives a text of the same words. -/
structure Pasted (segments : List Segment) (values : List Float) (chars : List Char) : Prop where
  substituteOnto_eq : ∀ done,
    substituteOnto done segments values = .ok (done ++ String.ofList chars)
  tokens_eq : (wordsOf segments values).map written.tokens =
    (Token.ofChars? chars).elim (.error .malformed) .ok

namespace Pasted

variable {segments : List Segment} {values : List Float} {chars : List Char}

theorem nil : Pasted [] values [] where
  substituteOnto_eq done := by rw [substituteOnto]; simp
  tokens_eq := by rw [Token.ofChars?_nil]; rfl

theorem literal (h : Pasted segments values chars) {run : List Char}
    (hrun : Token.ofChars? (run ++ chars) = (Token.ofChars? run).bind fun tokens =>
      (Token.ofChars? chars).map (tokens ++ ·)) :
    Pasted (.literal (String.ofList run) :: segments) values (run ++ chars) where
  substituteOnto_eq done := by
    rw [substituteOnto, h.substituteOnto_eq, String.ofList_append, String.append_assoc]
  tokens_eq := by
    have htokens := h.tokens_eq
    rw [hrun, wordsOf, Token.mapError_ofText, String.toList_ofList]
    cases Token.ofChars? run with
    | none => rfl
    | some tokens =>
        cases hwords : wordsOf segments values <;> cases hchars : Token.ofChars? chars <;>
          rw [hwords, hchars] at htokens <;> cases htokens
        · rfl
        · next words =>
          change Except.ok (written.tokens ((tokens ++ [Token.eof]).dropLast.map .token ++ words)) =
            Except.ok (tokens ++ written.tokens words)
          rw [List.dropLast_concat, written.tokens_append, written.tokens_map_token]

theorem reference (h : Pasted segments values chars) {token : String} {c : Coord} {x : Float}
    (hx : x.isFinite = true) :
    Pasted (.reference token (.ok c) :: segments) (x :: values)
      ('(' :: ((operandText x).toList ++ ')' :: chars)) where
  substituteOnto_eq done := by
    rw [substituteOnto, h.substituteOnto_eq]
    congr 1
    apply String.toList_inj.mp
    simp
  tokens_eq := by
    have htokens := h.tokens_eq
    have hclose : ∀ d ∈ (')' :: chars).head?, NumberLexeme.startsWith d = false := by
      rintro _ ⟨⟩
      rfl
    rw [Token.ofChars?_symbol rfl, Token.ofChars?_operandText hx hclose,
      Token.ofChars?_symbol rfl, wordsOf]
    cases hwords : wordsOf segments values <;> cases hchars : Token.ofChars? chars <;>
      rw [hwords, hchars] at htokens <;> cases htokens
    · rfl
    · next words =>
      change Except.ok ((Token.openParen :: (Expr.literal x).tokens ++ [.closeParen]) ++
        written.tokens words) = _
      simp

theorem mapError_ofText (h : Pasted segments values chars) :
    (Token.ofText (String.ofList chars)).mapError ExprError.toCellError =
      (wordsOf segments values).map fun words => written.tokens words ++ [.eof] := by
  have htokens := h.tokens_eq
  rw [Token.mapError_ofText, String.toList_ofList]
  cases hwords : wordsOf segments values <;> cases hchars : Token.ofChars? chars <;>
    rw [hwords, hchars] at htokens <;> cases htokens <;> rfl

end Pasted

/-- The condition on the first character is what lets a text that ends before a capital letter
be cut there. -/
theorem exists_pasted (text : List Char) {values : List Float}
    (herror : (Segment.ofCharsOnto [] text).findSome? Segment.error? = none)
    (hlength : values.length = ((Segment.ofCharsOnto [] text).filterMap Segment.target?).length)
    (hfinite : ∀ x ∈ values, x.isFinite = true) :
    ∃ chars, Pasted (Segment.ofCharsOnto [] text) values chars ∧
      ((∀ c ∈ text.head?, c.isUpper = true) →
        ∀ c ∈ chars.head?, NumberLexeme.startsWith c = false) := by
  induction text using Segment.split_induct generalizing values with
  | nil =>
      rw [Segment.ofCharsOnto] at hlength ⊢
      obtain rfl : values = [] := List.length_eq_zero_iff.mp hlength
      exact ⟨[], .nil, by rintro _ _ ⟨⟩⟩
  | cons c rest ih =>
      rw [Segment.ofCharsOnto_cons] at herror hlength ⊢
      rcases Segment.split_runs c rest with ⟨run, after, hsplit, hrun⟩ |
        ⟨letters, after, hsplit, hletters, -⟩ | ⟨letters, digits, after, hsplit, -, -⟩
      · rw [hsplit] at ih herror hlength ⊢
        obtain ⟨chars, hchars, hhead⟩ := ih herror hlength hfinite
        have hafter : ∀ d ∈ after.head?, d.isUpper = true := by simpa using hrun.ends
        refine ⟨c :: run ++ chars, hchars.literal (Token.ofChars?_append _ (hhead hafter)), ?_⟩
        intro hupper
        have hother := hrun.all c List.mem_cons_self
        rw [hupper c rfl] at hother
        cases hother
      · rw [hsplit] at ih herror hlength ⊢
        obtain ⟨chars, hchars, -⟩ := ih herror hlength hfinite
        have hc := hletters.all c List.mem_cons_self
        refine ⟨c :: letters ++ chars, hchars.literal ?_, ?_⟩
        · rw [List.cons_append, Token.ofChars?_of_isUpper hc, Token.ofChars?_of_isUpper hc]
          rfl
        · rintro _ _ ⟨⟩
          exact Token.startsWith_of_isUpper hc
      · rw [hsplit] at ih herror hlength ⊢
        rw [Segment.ofToken] at herror hlength ⊢
        cases htarget : Coord.ofToken (String.ofList (c :: letters ++ digits)) with
        | error e => rw [htarget] at herror; cases herror
        | ok target =>
            rw [htarget] at herror hlength
            cases values with
            | nil => cases hlength
            | cons x values =>
                obtain ⟨hx, hfinite⟩ := List.forall_mem_cons.mp hfinite
                obtain ⟨chars, hchars, -⟩ := ih herror (Nat.succ.inj hlength) hfinite
                refine ⟨_, hchars.reference hx, ?_⟩
                rintro - _ ⟨⟩
                rfl

end Formula

end LiveSheet
