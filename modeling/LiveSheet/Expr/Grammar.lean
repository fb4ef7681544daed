import LiveSheet.Expr
import LiveSheet.Expr.Lexeme

/-! # The arithmetic grammar

A sum is products joined by `+` and `-`, a product is operands joined by `*` and `/`, and
an operand is a number, a sum in parentheses, or a sign in front of an operand. An operand
may stand inside at most `maxNesting` parentheses and signs.

A reader consumes tokens from the front of a list. It leaves the rest of the list behind
also when it fails, and it never consumes the end of the expression, so reading can go on
from wherever it stopped. Readers of operands are built by recursion on the nesting that is
still allowed, which makes every reader total. -/

namespace LiveSheet

/-- What became of an attempt to read an expression: its result and the tokens left. -/
structure Reading where
  outcome : Except ExprError Expr
  rest : List Token

/-- A way to read an expression from the front of a list of tokens. -/
structure Reader where
  read : List Token → Reading
  length_rest_le : ∀ tokens, (read tokens).rest.length ≤ tokens.length

namespace Reading

def fail (e : ExprError) (rest : List Token) : Reading :=
  ⟨.error e, rest⟩

def andThen (reading : Reading) (next : Expr → List Token → Reading) : Reading :=
  match reading.outcome with
  | .ok e => next e reading.rest
  | .error e => fail e reading.rest

theorem andThen_length_rest_le {reading : Reading} {next : Expr → List Token → Reading}
    {bound : Nat} (h : reading.rest.length ≤ bound)
    (hnext : ∀ e, (next e reading.rest).rest.length ≤ bound) :
    (reading.andThen next).rest.length ≤ bound := by
  unfold andThen
  split
  · exact hnext _
  · exact h

end Reading

namespace Reader

/-- Reads the operators of a chain with their right operands, for as long as there are
operators; `done` holds those already read, the last one first. -/
def chainFrom (operator? : Token → Option BinOp) (operand : Reader) (first : Expr)
    (done : List (BinOp × Expr)) (tokens : List Token) : Reading :=
  match tokens with
  | [] => ⟨.ok (.ofChain first done.reverse), []⟩
  | token :: rest =>
      match operator? token with
      | none => ⟨.ok (.ofChain first done.reverse), token :: rest⟩
      | some op =>
          have := operand.length_rest_le rest
          match (operand.read rest).outcome with
          | .error e => .fail e (operand.read rest).rest
          | .ok right =>
              chainFrom operator? operand first ((op, right) :: done) (operand.read rest).rest
termination_by tokens.length
decreasing_by
  simp only [List.length_cons]
  omega

theorem chainFrom_length_rest_le (operator? : Token → Option BinOp) (operand : Reader)
    (first : Expr) (done : List (BinOp × Expr)) (tokens : List Token) :
    (chainFrom operator? operand first done tokens).rest.length ≤ tokens.length := by
  fun_induction chainFrom operator? operand first done tokens with
  | case1 => simp
  | case2 => simp
  | case3 _ _ rest _ _ hle => simp only [Reading.fail, List.length_cons]; omega
  | case4 _ _ rest _ _ hle _ _ ih => simp only [List.length_cons]; omega

/-- Reads operands joined by operators of one precedence. -/
def chain (operator? : Token → Option BinOp) (operand : Reader) : Reader where
  read tokens := (operand.read tokens).andThen fun first rest =>
    chainFrom operator? operand first [] rest
  length_rest_le tokens :=
    Reading.andThen_length_rest_le (operand.length_rest_le tokens) fun first =>
      Nat.le_trans (chainFrom_length_rest_le operator? operand first [] _)
        (operand.length_rest_le tokens)

/-- The operators that join products. -/
def additive? : Token → Option BinOp
  | .plus => some .add
  | .minus => some .sub
  | _ => none

/-- The operators that join operands. -/
def multiplicative? : Token → Option BinOp
  | .times => some .mul
  | .divide => some .div
  | _ => none

def sum (operand : Reader) : Reader :=
  (operand.chain multiplicative?).chain additive?

/-- Reads the operand after a sign. The sign is gone even if no more nesting is allowed. -/
def readSigned (inner : Option Reader) (sign : Sign) (tokens : List Token) : Reading :=
  match inner with
  | none => .fail .nestedTooDeeply tokens
  | some operand => (operand.read tokens).andThen fun e rest => ⟨.ok (.signed sign e), rest⟩

/-- Reads the rest of a group after its opening parenthesis. -/
def readGroup (inner : Option Reader) (tokens : List Token) : Reading :=
  match inner with
  | none => .fail .nestedTooDeeply tokens
  | some operand => (operand.sum.read tokens).andThen fun e rest =>
      match rest with
      | .closeParen :: rest => ⟨.ok (.group e), rest⟩
      | rest => .fail (.unclosedGroup (rest.headD .eof)) rest

/-- Reads an operand, given the reader of operands that are nested one level deeper. -/
def readOperand (inner : Option Reader) (tokens : List Token) : Reading :=
  match tokens with
  | .number x :: rest => ⟨.ok (.number x), rest⟩
  | .minus :: rest => readSigned inner .minus rest
  | .plus :: rest => readSigned inner .plus rest
  | .openParen :: rest => readGroup inner rest
  | tokens => .fail (.unexpectedToken (tokens.headD .eof)) tokens

theorem readSigned_length_rest_le (inner : Option Reader) (sign : Sign) (tokens : List Token) :
    (readSigned inner sign tokens).rest.length ≤ tokens.length := by
  unfold readSigned
  split
  · simp [Reading.fail]
  · next operand =>
    exact Reading.andThen_length_rest_le (operand.length_rest_le tokens) fun _ =>
      operand.length_rest_le tokens

theorem readGroup_length_rest_le (inner : Option Reader) (tokens : List Token) :
    (readGroup inner tokens).rest.length ≤ tokens.length := by
  unfold readGroup
  split
  · simp [Reading.fail]
  · next operand =>
    refine Reading.andThen_length_rest_le (operand.sum.length_rest_le tokens) fun _ => ?_
    have hle := operand.sum.length_rest_le tokens
    split
    · next h =>
      rw [h] at hle
      exact Nat.le_trans (Nat.le_succ _) hle
    · exact hle

theorem readOperand_length_rest_le (inner : Option Reader) (tokens : List Token) :
    (readOperand inner tokens).rest.length ≤ tokens.length := by
  unfold readOperand
  split
  · simp
  · exact Nat.le_succ_of_le (readSigned_length_rest_le _ _ _)
  · exact Nat.le_succ_of_le (readSigned_length_rest_le _ _ _)
  · exact Nat.le_succ_of_le (readGroup_length_rest_le _ _)
  · simp [Reading.fail]

/-- Reads an operand inside which `nesting` more parentheses and signs are allowed. -/
def operand : (nesting : Nat) → Reader
  | 0 => ⟨readOperand none, readOperand_length_rest_le none⟩
  | nesting + 1 =>
      ⟨readOperand (some (operand nesting)), readOperand_length_rest_le (some (operand nesting))⟩

end Reader

namespace Expr

/-- How many parentheses and signs an operand may stand in. -/
def maxNesting : Nat := 256

/-- Reads a sum, whatever comes after it. -/
def sumReader : Reader :=
  (Reader.operand maxNesting).sum

/-- Reads one expression from a list of tokens, up to the end of the expression or of the
list. The rest that is left starts with the first token that was not consumed. -/
def parse (tokens : List Token) : Reading :=
  (sumReader.read tokens).andThen fun e rest =>
    match rest.headD .eof with
    | .eof => ⟨.ok e, rest⟩
    | token => .fail (.unexpectedToken token) rest

def ofText (text : String) : Except ExprError Expr :=
  (Token.ofText text).bind fun tokens => (parse tokens).outcome

def evalText (text : String) : Except ExprError Float :=
  (ofText text).bind eval

end Expr

end LiveSheet
