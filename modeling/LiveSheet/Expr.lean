import LiveSheet.Expr.Token

/-! # Expressions

Arithmetic expressions and what they evaluate to. Operators of one precedence that follow
each other form one flat chain, which is computed from left to right, so the depth of a
tree grows only with parentheses and signs. -/

namespace LiveSheet

/-- An arithmetic operation on two numbers. -/
inductive BinOp where
  | add
  | sub
  | mul
  | div
deriving DecidableEq

/-- A sign in front of an operand. -/
inductive Sign where
  | minus
  | plus
deriving DecidableEq

/-- An arithmetic expression. -/
inductive Expr where
  | number (x : Float)
  /-- A first operand and the operators that follow it, each with its right operand. -/
  | chain (first : Expr) (rest : List (BinOp × Expr))
  | signed (sign : Sign) (operand : Expr)
  /-- An expression in parentheses. -/
  | group (inner : Expr)

namespace BinOp

def token : BinOp → Token
  | add => .plus
  | sub => .minus
  | mul => .times
  | div => .divide

/-- The operation on floating-point numbers, before its result is judged. -/
def raw (op : BinOp) (left right : Float) : Float :=
  match op with
  | add => left + right
  | sub => left - right
  | mul => left * right
  | div => left / right

/-- Computes one operation. A divisor of either zero is an error, and so is a result that
is infinite or no number. -/
def apply (op : BinOp) (left right : Float) : Except ExprError Float :=
  if op = .div ∧ right == 0 then .error .divisionByZero
  else if (op.raw left right).isFinite then .ok (op.raw left right)
  else .error .notFinite

end BinOp

namespace Sign

def token : Sign → Token
  | minus => .minus
  | plus => .plus

def apply (sign : Sign) (x : Float) : Float :=
  match sign with
  | minus => -x
  | plus => x

end Sign

namespace Expr

/-- A chain of operators; without operators it is its first operand. -/
def ofChain (first : Expr) (rest : List (BinOp × Expr)) : Expr :=
  if rest.isEmpty then first else chain first rest

def binary (left : Expr) (op : BinOp) (right : Expr) : Expr :=
  ofChain left [(op, right)]

mutual

/-- The value of an expression, or the first failure from left to right. -/
def eval : Expr → Except ExprError Float
  | .number x => .ok x
  | .group inner => eval inner
  | .signed sign operand =>
      match eval operand with
      | .ok x => .ok (sign.apply x)
      | .error e => .error e
  | .chain first rest =>
      match eval first with
      | .ok x => evalChain x rest
      | .error e => .error e

/-- The value of a chain whose operands up to here have the value `left`. -/
def evalChain (left : Float) : List (BinOp × Expr) → Except ExprError Float
  | [] => .ok left
  | (op, operand) :: rest =>
      match eval operand with
      | .error e => .error e
      | .ok right =>
          match op.apply left right with
          | .error e => .error e
          | .ok x => evalChain x rest

end

mutual

def tokens : Expr → List Token
  | .number x => [.number x]
  | .group inner => .openParen :: tokens inner ++ [.closeParen]
  | .signed sign operand => sign.token :: tokens operand
  | .chain first rest => tokens first ++ chainTokens rest

/-- The tokens of the operators of a chain and their right operands. -/
def chainTokens : List (BinOp × Expr) → List Token
  | [] => []
  | (op, operand) :: rest => op.token :: (tokens operand ++ chainTokens rest)

end

def text (e : Expr) : String :=
  String.join (e.tokens.map Token.text)

end Expr

end LiveSheet
