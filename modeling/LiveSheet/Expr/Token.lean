import LiveSheet.Decimal.Style
import LiveSheet.Error

/-! # Tokens

The words of the arithmetic language: numbers, four operators and parentheses. An
expression that has no value fails with an error of its own, which often names a token. -/

namespace LiveSheet

/-- A word of an arithmetic expression. -/
inductive Token where
  | number (x : Float)
  | plus
  | minus
  | times
  | divide
  | openParen
  | closeParen
  /-- The end of the expression. -/
  | eof
deriving DecidableEq

namespace Token

/-- The token of a character that is a token by itself. -/
def ofSymbol? : Char → Option Token
  | '+' => some plus
  | '-' => some minus
  | '*' => some times
  | '/' => some divide
  | '(' => some openParen
  | ')' => some closeParen
  | _ => none

def text : Token → String
  | number x => Decimal.Style.plain.write x
  | plus => "+"
  | minus => "-"
  | times => "*"
  | divide => "/"
  | openParen => "("
  | closeParen => ")"
  | eof => ""

def describe : Token → String
  | number x => "Number(" ++ Decimal.Style.tagged.write x ++ ")"
  | plus => "Plus"
  | minus => "Minus"
  | times => "Multiply"
  | divide => "Divide"
  | openParen => "LeftParen"
  | closeParen => "RightParen"
  | eof => "EOF"

end Token

/-! ## Expression errors

Every way in which reading or computing an arithmetic expression fails, the message that
describes it, and the error that it leaves in a cell. -/

/-- Why an expression has no value. Positions count characters from zero. -/
inductive ExprError where
  | unexpectedChar (c : Char) (position : Nat)
  | invalidNumber (text : String) (position : Nat)
  | unexpectedToken (token : Token)
  /-- A group is not closed where it ends. -/
  | unclosedGroup (found : Token)
  /-- An operand stands inside too many parentheses and signs. -/
  | nestedTooDeeply
  | divisionByZero
  | notFinite
deriving DecidableEq

namespace ExprError

def message : ExprError → String
  | unexpectedChar c position =>
      "unexpected character " ++ Text.quoteChar c ++ " at position " ++ Numeral.write position
  | invalidNumber text position =>
      "invalid number " ++ Text.quote text ++ " at position " ++ Numeral.write position
  | unexpectedToken token => "unexpected token: " ++ token.describe
  | unclosedGroup found => "unexpected token: expected ')', got " ++ found.describe
  | nestedTooDeeply => "unexpected token: expression nested too deeply"
  | divisionByZero => "division by zero"
  | notFinite => "result is not a finite number"

/-- The error that a failed expression leaves in its cell. -/
def toCellError : ExprError → CellError
  | divisionByZero => .divisionByZero
  | notFinite => .notFinite
  | _ => .malformed

end ExprError

end LiveSheet
