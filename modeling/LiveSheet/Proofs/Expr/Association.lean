import LiveSheet.Expr

/-! # Chains are left-associated

A chain of operators is kept flat, however long it is. It means what the same operators mean when
each has its own two operands and the operators before it are its left operand: the values are the
same, and where an operand or an operation fails, the same failure comes first. -/

namespace LiveSheet.Expr

/-! ## Trees of binary operations -/

mutual

/-- The expression with one operator to a chain. The operators of a longer chain are nested to the
left, each with all that stands before it as its left operand. -/
def leftNested : Expr → Expr
  | .number x => .number x
  | .group inner => .group (leftNested inner)
  | .signed sign operand => .signed sign (leftNested operand)
  | .chain first rest => nestOnto (leftNested first) rest

/-- Nests the operators of a chain around what stands before them. -/
def nestOnto (left : Expr) : List (BinOp × Expr) → Expr
  | [] => left
  | (op, operand) :: rest => nestOnto (binary left op (leftNested operand)) rest

end

/-- No chain has more or less than one operator. -/
inductive Binary : Expr → Prop
  | number (x : Float) : Binary (.number x)
  | group {inner : Expr} (h : Binary inner) : Binary (.group inner)
  | signed (sign : Sign) {operand : Expr} (h : Binary operand) : Binary (.signed sign operand)
  | operation {left right : Expr} (hleft : Binary left) (op : BinOp) (hright : Binary right) :
      Binary (.binary left op right)

/-- A chain `first op₁ e₁ … opₙ eₙ` becomes `((first op₁ e₁) … opₙ eₙ)`. -/
theorem nestOnto_eq_foldl (left : Expr) (rest : List (BinOp × Expr)) :
    nestOnto left rest =
      rest.foldl (fun left part => binary left part.1 part.2.leftNested) left := by
  induction rest generalizing left with
  | nil => rfl
  | cons part rest ih => exact ih _

mutual

theorem binary_leftNested : ∀ e : Expr, e.leftNested.Binary
  | .number x => .number x
  | .group inner => .group (binary_leftNested inner)
  | .signed sign operand => .signed sign (binary_leftNested operand)
  | .chain first rest => binary_nestOnto (binary_leftNested first) rest

theorem binary_nestOnto {left : Expr} (hleft : left.Binary) :
    ∀ rest : List (BinOp × Expr), (nestOnto left rest).Binary
  | [] => hleft
  | (op, operand) :: rest => binary_nestOnto (.operation hleft op (binary_leftNested operand)) rest

end

mutual

/-- Nesting neither moves nor drops an operand or an operator. -/
theorem tokens_leftNested : ∀ e : Expr, e.leftNested.tokens = e.tokens
  | .number x => rfl
  | .group inner => by rw [leftNested, tokens, tokens, tokens_leftNested inner]
  | .signed sign operand => by rw [leftNested, tokens, tokens, tokens_leftNested operand]
  | .chain first rest => by
      rw [leftNested, tokens_nestOnto, tokens_leftNested first, tokens]

theorem tokens_nestOnto (left : Expr) :
    ∀ rest : List (BinOp × Expr), (nestOnto left rest).tokens = left.tokens ++ chainTokens rest
  | [] => (List.append_nil _).symm
  | (op, operand) :: rest => by
      have hleft : (binary left op operand.leftNested).tokens =
          left.tokens ++ op.token :: operand.tokens := by
        rw [← tokens_leftNested operand]
        simp [binary, ofChain, tokens, chainTokens]
      rw [nestOnto, tokens_nestOnto, hleft, chainTokens, List.append_assoc, List.cons_append]

end

/-! ## Values -/

theorem eval_chain (first : Expr) (rest : List (BinOp × Expr)) :
    (chain first rest).eval = first.eval >>= (evalChain · rest) := by
  rw [eval]
  cases first.eval <;> rfl

theorem evalChain_nil : (evalChain · []) = pure := by
  funext x
  rw [evalChain]
  rfl

/-- One step of a chain is one operation. -/
theorem evalChain_cons (left : Float) (op : BinOp) (operand : Expr)
    (rest : List (BinOp × Expr)) :
    evalChain left ((op, operand) :: rest) =
      operand.eval >>= op.apply left >>= (evalChain · rest) := by
  rw [evalChain]
  cases operand.eval with
  | error e => rfl
  | ok right =>
      dsimp only [bind, Except.bind]
      cases op.apply left right <;> rfl

/-- A binary operation fails with its left operand, then with its right operand, and then by
itself. -/
theorem eval_binary (left : Expr) (op : BinOp) (right : Expr) :
    (binary left op right).eval = (do
      let x ← left.eval
      let y ← right.eval
      op.apply x y) := by
  change eval (chain left [(op, right)]) = _
  simp only [eval_chain, evalChain_cons, evalChain_nil, bind_pure]

mutual

theorem eval_leftNested : ∀ e : Expr, e.leftNested.eval = e.eval
  | .number x => rfl
  | .group inner => by rw [leftNested, eval, eval, eval_leftNested inner]
  | .signed sign operand => by rw [leftNested, eval, eval, eval_leftNested operand]
  | .chain first rest => by
      rw [leftNested, eval_nestOnto, eval_leftNested first, eval_chain]

/-- The operators that are nested around an operand go on from its value. -/
theorem eval_nestOnto (left : Expr) :
    ∀ rest : List (BinOp × Expr), (nestOnto left rest).eval = left.eval >>= (evalChain · rest)
  | [] => by rw [nestOnto, evalChain_nil, bind_pure]
  | (op, operand) :: rest => by
      rw [nestOnto, eval_nestOnto, eval_binary, eval_leftNested operand, bind_assoc]
      simp only [evalChain_cons]

end

/-- Chains are left-associated: whatever chains stand in an expression, and wherever, the operators
of each can be nested to the left. What comes out has one operator to a chain and the same operands
and operators in the same order, and it has the same value or fails in the same way. -/
theorem chains_left_associated (e : Expr) :
    (∀ first rest, (chain first rest).leftNested =
      rest.foldl (fun left part => binary left part.1 part.2.leftNested) first.leftNested) ∧
    e.leftNested.Binary ∧ e.leftNested.tokens = e.tokens ∧ e.leftNested.eval = e.eval :=
  ⟨fun first rest => nestOnto_eq_foldl first.leftNested rest, binary_leftNested e,
    tokens_leftNested e, eval_leftNested e⟩

/-- The operators of a chain are taken as they come, whatever they are. -/
example : (chain (.number 8) [(.sub, .number 4), (.div, .number 2)]).leftNested =
    binary (binary (.number 8) .sub (.number 4)) .div (.number 2) := rfl

end LiveSheet.Expr
