import LiveSheet.Expr.Token

/-! # Lexemes

How a text falls into tokens. Blanks separate lexemes and are dropped; operators and
parentheses are lexemes by themselves; a number is the longest run of digits with at most
one point, so a second point starts the next number. Reading stops at the first character
outside this alphabet and after the first point that has no digit beside it. -/

namespace LiveSheet

/-- The written form of a number: the digits before its point, and those after it if it
has a point. -/
structure NumberLexeme where
  whole : List Char
  fraction : Option (List Char)

namespace NumberLexeme

def chars (n : NumberLexeme) : List Char :=
  match n.fraction with
  | some ds => n.whole ++ '.' :: ds
  | none => n.whole

/-- Whether the lexeme has a digit, which makes it a number. -/
def hasDigit (n : NumberLexeme) : Bool :=
  !(n.whole.isEmpty && (n.fraction.getD []).isEmpty)

def value (n : NumberLexeme) : Float :=
  (Decimal.ofParts n.whole (n.fraction.getD [])).toFloat

/-- The longest lexeme of a number at the front of a text, and what comes after it. -/
def split (text : List Char) : NumberLexeme × List Char :=
  let whole := text.takeWhile Char.isDigit
  match text.dropWhile Char.isDigit with
  | '.' :: rest => (⟨whole, some (rest.takeWhile Char.isDigit)⟩, rest.dropWhile Char.isDigit)
  | rest => (⟨whole, none⟩, rest)

theorem chars_append_split (text : List Char) :
    (split text).1.chars ++ (split text).2 = text := by
  unfold split
  split
  · next rest h =>
    simp only [chars, List.append_assoc, List.cons_append, List.takeWhile_append_dropWhile]
    rw [← h, List.takeWhile_append_dropWhile]
  · simp only [chars, List.takeWhile_append_dropWhile]

def startsWith (c : Char) : Bool :=
  c.isDigit || c == '.'

theorem split_length_lt (c : Char) (rest : List Char) (h : startsWith c = true) :
    (split (c :: rest)).2.length < (c :: rest).length := by
  have hlength := congrArg List.length (chars_append_split (c :: rest))
  have hpos : 0 < (split (c :: rest)).1.chars.length := by
    by_cases hdigit : c.isDigit = true
    · unfold split
      split <;> simp [chars, hdigit]
    · have hpoint : c = '.' := by simpa [startsWith, hdigit] using h
      subst hpoint
      simp [split, chars, hdigit]
  rw [List.length_append] at hlength
  omega

end NumberLexeme

/-- A place in a text: what is still to be read, and how many characters came before. -/
structure Cursor where
  rest : List Char
  position : Nat

namespace Cursor

def ofText (text : String) : Cursor :=
  ⟨text.toList, 0⟩

/-- Reads tokens up to the end of the text, adding them to those already read, the last
of which comes first. The cursor that is returned stands where reading stopped: at the
end, at the offending character, or after the offending point. -/
def tokensOnto (done : List Token) (rest : List Char) (position : Nat) :
    Except ExprError (List Token) × Cursor :=
  match rest with
  | [] => (.ok (Token.eof :: done).reverse, ⟨[], position⟩)
  | c :: cs =>
      if Text.isBlank c then tokensOnto done cs (position + 1)
      else match Token.ofSymbol? c with
      | some token => tokensOnto (token :: done) cs (position + 1)
      | none =>
          if h : NumberLexeme.startsWith c then
            have := NumberLexeme.split_length_lt c cs h
            let number := (NumberLexeme.split (c :: cs)).1
            let after := (NumberLexeme.split (c :: cs)).2
            let next := position + number.chars.length
            if number.hasDigit then tokensOnto (.number number.value :: done) after next
            else (.error (.invalidNumber (String.ofList number.chars) position), ⟨after, next⟩)
          else (.error (.unexpectedChar c position), ⟨c :: cs, position⟩)
termination_by rest.length
decreasing_by
  · simp
  · simp
  · assumption

/-- The tokens from a cursor to the end of its text, ending in `eof`, and the cursor after
them; or the leftmost offence. -/
def tokens (cursor : Cursor) : Except ExprError (List Token) × Cursor :=
  tokensOnto [] cursor.rest cursor.position

end Cursor

def Token.ofText (text : String) : Except ExprError (List Token) :=
  (Cursor.ofText text).tokens.1

end LiveSheet
