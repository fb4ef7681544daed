import LiveSheet.Proofs.Expr.Opening

/-! # A parser that goes on

A parser keeps its place in a list of tokens, and it counts the parentheses and signs that it is in.
What it does is told call by call, with every way in which a call can fail, and nothing in that says
that a call ever comes back, or in one way only. Every call does. Its parser has moved on then, is
in as many parentheses and signs as before, and has read what the readers of the grammar read, which
have the tokens that are left in place of a position and a bound in place of a count. So a parser
can be called again, however its calls have ended, and is as good as one that has just been made. -/

namespace LiveSheet

/-- A parser under way. -/
structure Parser where
  tokens : List Token
  /-- How many tokens have been consumed. -/
  position : Nat
  /-- In how many parentheses and signs the parser is. -/
  depth : Nat

namespace Parser

def ofTokens (tokens : List Token) : Parser :=
  ⟨tokens, 0, 0⟩

/-- The next token, and the end of the expression behind the last one. -/
def peek (p : Parser) : Token :=
  p.tokens[p.position]?.getD .eof

/-- Consumes a token, but not the end of the expression. -/
def advance (p : Parser) : Parser :=
  if p.peek = .eof then p else { p with position := p.position + 1 }

def deeper (p : Parser) : Parser :=
  { p with depth := p.depth + 1 }

def shallower (p : Parser) : Parser :=
  { p with depth := p.depth - 1 }

/-- The two kinds of chains. -/
inductive Level where
  | sum
  | product

/-- The operators that join the members of a chain. -/
def Level.operator? : Level → Token → Option BinOp
  | sum => Reader.additive?
  | product => Reader.multiplicative?

/-- What a parser is called for. -/
inductive Task where
  | operand
  | chain (level : Level)
  /-- The operators of a chain with their right operands; `done` holds those already read, the
  last one first. -/
  | more (level : Level) (first : Expr) (done : List (BinOp × Expr))
  /-- An expression up to the end. -/
  | whole

def Level.member : Level → Task
  | sum => .chain .product
  | product => .operand

/-- The sign that a token stands for in front of an operand. -/
def sign? : Token → Option Sign
  | .minus => some .minus
  | .plus => some .plus
  | _ => none

/-- A call, its outcome and the parser after it. -/
inductive Call : Task → Parser → Except ExprError Expr → Parser → Prop
  | number {p : Parser} {x : Float} (hpeek : p.peek = .number x) :
      Call .operand p (.ok (.number x)) p.advance
  | signed {p q : Parser} {sign : Sign} {outcome : Except ExprError Expr}
      (hpeek : sign? p.peek = some sign) (hdepth : p.depth < Expr.maxNesting)
      (hoperand : Call .operand p.advance.deeper outcome q) :
      Call .operand p (outcome.map (Expr.signed sign)) q.shallower
  | group {p q : Parser} {e : Expr}
      (hpeek : p.peek = .openParen) (hdepth : p.depth < Expr.maxNesting)
      (hsum : Call (.chain .sum) p.advance.deeper (.ok e) q)
      (hclose : q.shallower.peek = .closeParen) :
      Call .operand p (.ok (.group e)) q.shallower.advance
  | unclosed {p q : Parser} {e : Expr}
      (hpeek : p.peek = .openParen) (hdepth : p.depth < Expr.maxNesting)
      (hsum : Call (.chain .sum) p.advance.deeper (.ok e) q)
      (hclose : q.shallower.peek ≠ .closeParen) :
      Call .operand p (.error (.unclosedGroup q.shallower.peek)) q.shallower
  | group_fails {p q : Parser} {e : ExprError}
      (hpeek : p.peek = .openParen) (hdepth : p.depth < Expr.maxNesting)
      (hsum : Call (.chain .sum) p.advance.deeper (.error e) q) :
      Call .operand p (.error e) q.shallower
  | too_deep {p : Parser}
      (hpeek : p.peek = .minus ∨ p.peek = .plus ∨ p.peek = .openParen)
      (hdepth : Expr.maxNesting ≤ p.depth) :
      Call .operand p (.error .nestedTooDeeply) p.advance
  | unexpected {p : Parser}
      (hpeek : p.peek = .times ∨ p.peek = .divide ∨ p.peek = .closeParen ∨ p.peek = .eof) :
      Call .operand p (.error (.unexpectedToken p.peek)) p
  | chain {p q r : Parser} {level : Level} {first : Expr} {outcome : Except ExprError Expr}
      (hfirst : Call level.member p (.ok first) q)
      (hmore : Call (.more level first []) q outcome r) :
      Call (.chain level) p outcome r
  | chain_fails {p q : Parser} {level : Level} {e : ExprError}
      (hfirst : Call level.member p (.error e) q) :
      Call (.chain level) p (.error e) q
  | last {p : Parser} {level : Level} {first : Expr} {done : List (BinOp × Expr)}
      (hpeek : level.operator? p.peek = none) :
      Call (.more level first done) p (.ok (.ofChain first done.reverse)) p
  | next {p q r : Parser} {level : Level} {first right : Expr} {op : BinOp}
      {done : List (BinOp × Expr)} {outcome : Except ExprError Expr}
      (hpeek : level.operator? p.peek = some op)
      (hright : Call level.member p.advance (.ok right) q)
      (hmore : Call (.more level first ((op, right) :: done)) q outcome r) :
      Call (.more level first done) p outcome r
  | next_fails {p q : Parser} {level : Level} {first : Expr} {op : BinOp}
      {done : List (BinOp × Expr)} {e : ExprError}
      (hpeek : level.operator? p.peek = some op)
      (hright : Call level.member p.advance (.error e) q) :
      Call (.more level first done) p (.error e) q
  | whole {p q : Parser} {e : Expr}
      (hsum : Call (.chain .sum) p (.ok e) q) (hend : q.peek = .eof) :
      Call .whole p (.ok e) q
  | trailing {p q : Parser} {e : Expr}
      (hsum : Call (.chain .sum) p (.ok e) q) (hend : q.peek ≠ .eof) :
      Call .whole p (.error (.unexpectedToken q.peek)) q
  | whole_fails {p q : Parser} {e : ExprError}
      (hsum : Call (.chain .sum) p (.error e) q) :
      Call .whole p (.error e) q

/-- Calls for an expression, one after the other with one parser. -/
inductive Calls : Parser → List (Except ExprError Expr) → Parser → Prop
  | nil (p : Parser) : Calls p [] p
  | cons {p q r : Parser} {outcome : Except ExprError Expr}
      {outcomes : List (Except ExprError Expr)} (hcall : Call .whole p outcome q)
      (hcalls : Calls q outcomes r) : Calls p (outcome :: outcomes) r

variable {p q r : Parser} {token : Token} {tokens : List Token} {task : Task}
  {outcome : Except ExprError Expr} {level : Level} {op : BinOp}

/-! ## The place of a parser -/

/-- What is left to be read. -/
def rest (p : Parser) : List Token :=
  p.tokens.drop p.position

theorem rest_deeper (p : Parser) : p.deeper.rest = p.rest :=
  rfl

theorem rest_shallower (p : Parser) : p.shallower.rest = p.rest :=
  rfl

/-- What a call may do to its parser: it moves on over tokens that are there and are not the end of
the expression, and it is in as many parentheses and signs as before. -/
structure Advanced (p q : Parser) : Prop where
  tokens_eq : q.tokens = p.tokens
  depth_eq : q.depth = p.depth
  position_le : p.position ≤ q.position
  consumed : ∀ i, p.position ≤ i → i < q.position →
    ∃ token, p.tokens[i]? = some token ∧ token ≠ .eof

theorem Advanced.refl (p : Parser) : Advanced p p :=
  ⟨rfl, rfl, Nat.le_refl _, fun _ hle hlt => absurd hlt (Nat.not_lt.mpr hle)⟩

theorem Advanced.trans (h : Advanced p q) (h' : Advanced q r) : Advanced p r where
  tokens_eq := h'.tokens_eq.trans h.tokens_eq
  depth_eq := h'.depth_eq.trans h.depth_eq
  position_le := Nat.le_trans h.position_le h'.position_le
  consumed i hle hlt := by
    rcases Nat.lt_or_ge i q.position with hbefore | hafter
    · exact h.consumed i hle hbefore
    · exact h.tokens_eq ▸ h'.consumed i hafter hlt

/-- One level deeper a call changes nothing about the level of the parser. -/
theorem Advanced.nested (h : Advanced p.deeper q) : Advanced p q.shallower where
  tokens_eq := h.tokens_eq
  depth_eq := by
    change q.depth - 1 = p.depth
    rw [h.depth_eq]
    rfl
  position_le := h.position_le
  consumed := h.consumed

/-- As many tokens have been consumed as are missing from the rest. -/
theorem Advanced.position_eq (h : Advanced p q) :
    q.position = p.position + (p.rest.length - q.rest.length) := by
  have hle := h.position_le
  rw [rest, rest, h.tokens_eq, List.length_drop, List.length_drop]
  rcases Nat.eq_or_lt_of_le hle with heq | hlt
  · omega
  · obtain ⟨token, hlast, -⟩ := h.consumed (q.position - 1) (by omega) (by omega)
    have hlength := (List.getElem?_eq_some_iff.mp hlast).1
    omega

theorem Advanced.length_rest_le (h : Advanced p q) : q.rest.length ≤ p.rest.length := by
  have hle := h.position_le
  rw [rest, rest, h.tokens_eq, List.length_drop, List.length_drop]
  omega

theorem peek_eq (p : Parser) : p.peek = p.rest.headD .eof := by
  rw [peek, rest, List.headD_eq_head?_getD, List.head?_drop]

/-- Only the end of the expression is not consumed. -/
theorem rest_eq_cons (h : p.peek ≠ .eof) : p.rest = p.peek :: p.advance.rest := by
  rw [advance, if_neg h]
  cases hrest : p.rest with
  | nil => exact (h (by rw [peek_eq, hrest, List.headD_nil])).elim
  | cons token tokens =>
      rw [peek_eq, hrest, List.headD_cons, rest, ← List.tail_drop]
      exact congrArg (token :: ·) (congrArg List.tail hrest).symm

theorem advanced_advance (h : p.peek ≠ .eof) : Advanced p p.advance := by
  have hget : p.tokens[p.position]? = some p.peek := by
    rw [← List.head?_drop]
    exact congrArg List.head? (rest_eq_cons h)
  rw [advance, if_neg h]
  refine ⟨rfl, rfl, Nat.le_succ _, fun i hle hlt => ⟨p.peek, ?_, h⟩⟩
  rwa [Nat.le_antisymm (Nat.le_of_lt_succ hlt) hle]

/-! ## What a call does to its parser -/

theorem ne_eof_of_sign? {sign : Sign} (h : sign? token = some sign) : token ≠ .eof := by
  rintro rfl
  cases h

theorem ne_eof_of_operator? (h : level.operator? token = some op) : token ≠ .eof := by
  rintro rfl
  cases level <;> cases h

/-- However a call ends, it has done no more than to move its parser on. -/
theorem Call.advanced (h : Call task p outcome q) : Advanced p q := by
  induction h with
  | number hpeek => exact advanced_advance (by simp [hpeek])
  | signed hpeek _ _ ih => exact (advanced_advance (ne_eof_of_sign? hpeek)).trans ih.nested
  | group hpeek _ _ hclose ih =>
      have hpast := (advanced_advance (by simp [hpeek])).trans ih.nested
      exact hpast.trans (advanced_advance (by simp [hclose]))
  | unclosed hpeek _ _ _ ih => exact (advanced_advance (by simp [hpeek])).trans ih.nested
  | group_fails hpeek _ _ ih => exact (advanced_advance (by simp [hpeek])).trans ih.nested
  | too_deep hpeek _ =>
      refine advanced_advance fun heof => ?_
      rw [heof] at hpeek
      exact absurd hpeek (by decide)
  | unexpected _ => exact .refl _
  | chain _ _ ih ih' => exact ih.trans ih'
  | chain_fails _ ih => exact ih
  | last _ => exact .refl _
  | next hpeek _ _ ih ih' =>
      exact ((advanced_advance (ne_eof_of_operator? hpeek)).trans ih).trans ih'
  | next_fails hpeek _ ih => exact (advanced_advance (ne_eof_of_operator? hpeek)).trans ih
  | whole _ _ ih => exact ih
  | trailing _ _ ih => exact ih
  | whole_fails _ ih => exact ih

/-! ## Every call comes back -/

/-- A task that calls for another one before it consumes a token is of a higher rank. -/
def Task.rank : Task → Nat
  | operand => 0
  | more .. => 0
  | chain .product => 1
  | chain .sum => 2
  | whole => 3

theorem Level.rank_member_lt (level : Level) : level.member.rank < (Task.chain level).rank := by
  cases level <;> decide

theorem Task.rank_le (task : Task) : task.rank ≤ 3 := by
  rcases task with _ | level | _ | _
  · decide
  · cases level <;> decide
  · exact Nat.zero_le _
  · decide

/-- An operand comes back if all calls behind its first token do. -/
theorem exists_call_operand
    (h : p.peek ≠ .eof → ∀ task, ∃ outcome q, Call task p.advance.deeper outcome q) :
    ∃ outcome q, Call .operand p outcome q := by
  rcases Nat.lt_or_ge p.depth Expr.maxNesting with hdepth | hdepth
  · cases hpeek : p.peek with
    | number x => exact ⟨_, _, .number hpeek⟩
    | minus | plus =>
        obtain ⟨outcome, q, hoperand⟩ := h (by simp [hpeek]) .operand
        exact ⟨_, _, .signed (congrArg sign? hpeek) hdepth hoperand⟩
    | openParen =>
        obtain ⟨outcome, q, hsum⟩ := h (by simp [hpeek]) (.chain .sum)
        cases outcome with
        | error e => exact ⟨_, _, .group_fails hpeek hdepth hsum⟩
        | ok e =>
            by_cases hclose : q.shallower.peek = .closeParen
            · exact ⟨_, _, .group hpeek hdepth hsum hclose⟩
            · exact ⟨_, _, .unclosed hpeek hdepth hsum hclose⟩
    | _ => exact ⟨_, _, .unexpected (by simp [hpeek])⟩
  · cases hpeek : p.peek with
    | number x => exact ⟨_, _, .number hpeek⟩
    | minus | plus | openParen => exact ⟨_, _, .too_deep (by simp [hpeek]) hdepth⟩
    | _ => exact ⟨_, _, .unexpected (by simp [hpeek])⟩

/-- Every call consumes a token before it comes to a task of the same or a higher rank. -/
theorem exists_call (task : Task) (p : Parser) : ∃ outcome q, Call task p outcome q := by
  induction hsize : 4 * p.rest.length + task.rank using Nat.strongRecOn generalizing task p with
  | ind size ih =>
    have hcall : ∀ task' q, 4 * q.rest.length + task'.rank < size →
        ∃ outcome r, Call task' q outcome r := fun task' q hlt => ih _ hlt task' q rfl
    have hbehind : p.peek ≠ .eof → ∀ task' q, q.rest.length ≤ p.advance.rest.length →
        ∃ outcome r, Call task' q outcome r := fun hpeek task' q hle => by
      have hlength := congrArg List.length (rest_eq_cons hpeek)
      rw [List.length_cons] at hlength
      have hrank := task'.rank_le
      exact hcall task' q (by omega)
    cases task with
    | operand =>
        exact exists_call_operand fun hpeek task' =>
          hbehind hpeek task' p.advance.deeper (Nat.le_refl _)
    | chain level =>
        have hrank := level.rank_member_lt
        obtain ⟨outcome, q, hfirst⟩ := hcall level.member p (by omega)
        cases outcome with
        | error e => exact ⟨_, _, .chain_fails hfirst⟩
        | ok first =>
            have hle := hfirst.advanced.length_rest_le
            have hzero : (Task.more level first []).rank = 0 := rfl
            obtain ⟨outcome, r, hmore⟩ := hcall (.more level first []) q (by omega)
            exact ⟨_, _, .chain hfirst hmore⟩
    | more level first done =>
        cases hpeek : level.operator? p.peek with
        | none => exact ⟨_, _, .last hpeek⟩
        | some op =>
            have hbehind := hbehind (ne_eof_of_operator? hpeek)
            obtain ⟨outcome, q, hright⟩ := hbehind level.member p.advance (Nat.le_refl _)
            cases outcome with
            | error e => exact ⟨_, _, .next_fails hpeek hright⟩
            | ok right =>
                obtain ⟨outcome, r, hmore⟩ :=
                  hbehind (.more level first ((op, right) :: done)) q hright.advanced.length_rest_le
                exact ⟨_, _, .next hpeek hright hmore⟩
    | whole =>
        have hrank : (Task.chain .sum).rank < Task.whole.rank := by decide
        obtain ⟨outcome, q, hsum⟩ := hcall (.chain .sum) p (by omega)
        cases outcome with
        | error e => exact ⟨_, _, .whole_fails hsum⟩
        | ok e =>
            by_cases hend : q.peek = .eof
            · exact ⟨_, _, .whole hsum hend⟩
            · exact ⟨_, _, .trailing hsum hend⟩

/-! ## What a call reads -/

/-- The reader of the members of a chain. -/
def Level.reader (nesting : Nat) : Level → Reader
  | sum => (Reader.operand nesting).chain Reader.multiplicative?
  | product => Reader.operand nesting

/-- What the grammar reads for a task, where `nesting` parentheses and signs are still allowed. -/
def Task.read (nesting : Nat) (tokens : List Token) : Task → Reading
  | operand => (Reader.operand nesting).read tokens
  | chain level => ((level.reader nesting).chain level.operator?).read tokens
  | more level first done =>
      Reader.chainFrom level.operator? (level.reader nesting) first done tokens
  | whole => ((Reader.operand nesting).sum.read tokens).andThen fun e rest =>
      match rest.headD .eof with
      | .eof => ⟨.ok e, rest⟩
      | token => .fail (.unexpectedToken token) rest

theorem read_member (level : Level) (nesting : Nat) (tokens : List Token) :
    level.member.read nesting tokens = (level.reader nesting).read tokens := by
  cases level <;> rfl

theorem read_sum (nesting : Nat) (tokens : List Token) :
    Task.read nesting tokens (.chain .sum) = (Reader.operand nesting).sum.read tokens :=
  rfl

theorem readOperand_of_sign? {sign : Sign} (h : sign? token = some sign) (inner : Option Reader)
    (tokens : List Token) :
    Reader.readOperand inner (token :: tokens) = Reader.readSigned inner sign tokens := by
  cases token <;> cases h <;> rfl

theorem depth_advance (p : Parser) : p.advance.depth = p.depth := by
  unfold advance
  split <;> rfl

/-- The operand behind a sign or an opening parenthesis is read with one of them less. -/
theorem read_operand_of_lt (hdepth : p.depth < Expr.maxNesting) (hpeek : p.peek ≠ .eof) :
    Task.read (Expr.maxNesting - p.depth) p.rest .operand =
      Reader.readOperand (some (Reader.operand (Expr.maxNesting - p.advance.deeper.depth)))
        (p.peek :: p.advance.rest) := by
  have hnesting : Expr.maxNesting - p.depth = Expr.maxNesting - p.advance.deeper.depth + 1 := by
    have hdeeper : p.advance.deeper.depth = p.depth + 1 := congrArg (· + 1) p.depth_advance
    omega
  rw [hnesting, rest_eq_cons hpeek]
  rfl

theorem read_operand_of_le (hdepth : Expr.maxNesting ≤ p.depth) (hpeek : p.peek ≠ .eof) :
    Task.read (Expr.maxNesting - p.depth) p.rest .operand =
      Reader.readOperand none (p.peek :: p.advance.rest) := by
  rw [Nat.sub_eq_zero_of_le hdepth, rest_eq_cons hpeek]
  rfl

theorem read_operand_of_openParen (hdepth : p.depth < Expr.maxNesting)
    (hpeek : p.peek = .openParen) :
    Task.read (Expr.maxNesting - p.depth) p.rest .operand =
      Reader.readGroup (some (Reader.operand (Expr.maxNesting - p.advance.deeper.depth)))
        p.advance.rest := by
  rw [read_operand_of_lt hdepth (by simp [hpeek]), hpeek]
  rfl

/-- A call reads what the grammar reads from the tokens that are left. -/
theorem Call.read_eq (h : Call task p outcome q) :
    task.read (Expr.maxNesting - p.depth) p.rest = ⟨outcome, q.rest⟩ := by
  induction h with
  | @number p x hpeek =>
      rw [rest_eq_cons (by simp [hpeek]), hpeek, Task.read]
      cases Expr.maxNesting - p.depth <;> rfl
  | @signed p q sign outcome hpeek hdepth _ ih =>
      rw [Task.read, rest_deeper] at ih
      rw [read_operand_of_lt hdepth (ne_eof_of_sign? hpeek), readOperand_of_sign? hpeek,
        Reader.readSigned, ih]
      cases outcome <;> rfl
  | @group p q e hpeek hdepth _ hclose ih =>
      rw [read_sum, rest_deeper] at ih
      have hrest := rest_eq_cons (p := q.shallower) (by simp [hclose])
      rw [hclose, rest_shallower] at hrest
      rw [read_operand_of_openParen hdepth hpeek, Reader.readGroup, ih, hrest]
      rfl
  | @unclosed p q e hpeek hdepth _ hclose ih =>
      rw [read_sum, rest_deeper] at ih
      rw [read_operand_of_openParen hdepth hpeek, Reader.readGroup, ih]
      rw [peek_eq, rest_shallower] at hclose ⊢
      generalize q.rest = rest at hclose ⊢
      rcases rest with _ | ⟨token, tokens⟩
      · rfl
      · cases token <;> first | rfl | exact (hclose rfl).elim
  | group_fails hpeek hdepth _ ih =>
      rw [read_sum, rest_deeper] at ih
      rw [read_operand_of_openParen hdepth hpeek, Reader.readGroup, ih]
      rfl
  | too_deep hpeek hdepth =>
      rcases hpeek with hpeek | hpeek | hpeek <;>
        rw [read_operand_of_le hdepth (by simp [hpeek]), hpeek] <;> rfl
  | @unexpected p hpeek =>
      rw [Task.read]
      rw [peek_eq] at hpeek ⊢
      generalize p.rest = rest at hpeek ⊢
      rcases rest with _ | ⟨token, tokens⟩
      · cases Expr.maxNesting - p.depth <;> rfl
      · rw [List.headD_cons] at hpeek
        rcases hpeek with rfl | rfl | rfl | rfl <;> cases Expr.maxNesting - p.depth <;> rfl
  | chain hfirst _ ih ih' =>
      rw [read_member] at ih
      rw [hfirst.advanced.depth_eq] at ih'
      change Reading.andThen _ _ = _
      rw [ih]
      exact ih'
  | chain_fails _ ih =>
      rw [read_member] at ih
      change Reading.andThen _ _ = _
      rw [ih]
      rfl
  | @last p level first done hpeek =>
      rw [Task.read]
      refine Reader.chainFrom_of_head fun token htoken => ?_
      rw [peek_eq, List.headD_eq_head?_getD, Option.mem_def.mp htoken] at hpeek
      exact hpeek
  | next hpeek hright _ ih ih' =>
      rw [read_member, depth_advance] at ih
      rw [hright.advanced.depth_eq, depth_advance] at ih'
      rw [rest_eq_cons (ne_eof_of_operator? hpeek), Task.read, Reader.chainFrom_cons hpeek, ih]
      exact ih'
  | next_fails hpeek _ ih =>
      rw [read_member, depth_advance] at ih
      rw [rest_eq_cons (ne_eof_of_operator? hpeek), Task.read, Reader.chainFrom_cons hpeek, ih]
      rfl
  | whole _ hend ih =>
      rw [read_sum] at ih
      rw [peek_eq] at hend
      rw [Task.read, ih, Reading.andThen]
      simp only [hend]
  | @trailing p q e _ hend ih =>
      rw [read_sum] at ih
      rw [peek_eq] at hend ⊢
      rw [Task.read, ih, Reading.andThen]
      generalize q.rest.headD .eof = token at hend ⊢
      cases token <;> first | rfl | exact (hend rfl).elim
  | whole_fails _ ih =>
      rw [read_sum] at ih
      rw [Task.read, ih]
      rfl

/-! ## One call after the other -/

/-- A call comes back in one way only. -/
theorem Call.unique {outcome' : Except ExprError Expr} {q' : Parser} (h : Call task p outcome q)
    (h' : Call task p outcome' q') : outcome' = outcome ∧ q' = q := by
  have hread := h'.read_eq.symm.trans h.read_eq
  have hpast := h.advanced
  have hpast' := h'.advanced
  injection hread with houtcome hrest
  have hposition : q'.position = q.position := by
    rw [hpast'.position_eq, hpast.position_eq, hrest]
  refine ⟨houtcome, ?_⟩
  obtain ⟨tokens, position, depth⟩ := q
  obtain ⟨tokens', position', depth'⟩ := q'
  cases hpast.tokens_eq
  cases hpast.depth_eq
  cases hpast'.tokens_eq
  cases hpast'.depth_eq
  cases hposition
  rfl

/-- Outside all parentheses and signs a call reads what the grammar reads. -/
theorem Call.parse_eq (h : Call .whole p outcome q) (hp : p.depth = 0) :
    Expr.parse p.rest = ⟨outcome, q.rest⟩ := by
  have hread := h.read_eq
  rw [hp] at hread
  exact hread

theorem Calls.advanced {outcomes : List (Except ExprError Expr)} (h : Calls p outcomes q) :
    Advanced p q := by
  induction h with
  | nil p => exact .refl p
  | cons hcall _ ih => exact hcall.advanced.trans ih

theorem exists_calls (n : Nat) (p : Parser) :
    ∃ outcomes q, Calls p outcomes q ∧ outcomes.length = n := by
  induction n generalizing p with
  | zero => exact ⟨[], p, .nil p, rfl⟩
  | succ n ih =>
      obtain ⟨outcome, q, hcall⟩ := exists_call .whole p
      obtain ⟨outcomes, r, hcalls, hlength⟩ := ih q
      exact ⟨outcome :: outcomes, r, .cons hcall hcalls, congrArg (· + 1) hlength⟩

/-- Every call comes back, in one way only, from every state of a parser. However it ends, the
parser has moved on over tokens that are there and are not the end of the expression, and is in as
many parentheses and signs as before. So a parser that has just been made can be called any number
of times. Each of these calls has the outcome of a call of a parser made for the tokens that are
left, consumes as many tokens as that, and reads what the grammar reads from them. -/
theorem every_call_returns :
    (∀ task p, ∃ outcome q, Call task p outcome q ∧ Advanced p q ∧
      ∀ outcome' q', Call task p outcome' q' → outcome' = outcome ∧ q' = q) ∧
    ∀ tokens : List Token,
      (∀ n, ∃ outcomes p, Calls (ofTokens tokens) outcomes p ∧ outcomes.length = n) ∧
      ∀ outcomes p, Calls (ofTokens tokens) outcomes p → Advanced (ofTokens tokens) p ∧
        ∀ outcome q, Call .whole p outcome q →
          (∃ fresh, Call .whole (ofTokens p.rest) outcome fresh ∧
            q.position = p.position + fresh.position) ∧
          Expr.parse p.rest = ⟨outcome, q.rest⟩ := by
  refine ⟨fun task p => ?_, fun tokens => ⟨fun n => exists_calls n _,
    fun outcomes p hcalls => ⟨hcalls.advanced, fun outcome q hcall => ?_⟩⟩⟩
  · obtain ⟨outcome, q, hcall⟩ := exists_call task p
    exact ⟨outcome, q, hcall, hcall.advanced, fun outcome' q' hcall' => hcall.unique hcall'⟩
  · have hread := hcall.parse_eq hcalls.advanced.depth_eq
    obtain ⟨outcome', fresh, hfresh⟩ := exists_call .whole (ofTokens p.rest)
    have hread' := hfresh.parse_eq rfl
    have hsame := hread'.symm.trans hread
    injection hsame with houtcome hrest
    refine ⟨⟨fresh, houtcome ▸ hfresh, ?_⟩, hread⟩
    have hposition : fresh.position = 0 + (p.rest.length - fresh.rest.length) :=
      hfresh.advanced.position_eq
    rw [hcall.advanced.position_eq, hposition, hrest, Nat.zero_add]

/-- A group that is opened and never closed can be read again and again. -/
theorem calls_return_of_open_group :
    ∃ outcomes p, Calls (ofTokens [.openParen, .eof]) outcomes p ∧ outcomes.length = 3 ∧
      p.depth = 0 ∧ ∃ outcome q, Call .whole p outcome q ∧ q.depth = 0 ∧
        Expr.parse p.rest = ⟨outcome, q.rest⟩ := by
  obtain ⟨hreturns, hcalls⟩ := every_call_returns
  obtain ⟨hexists, hafter⟩ := hcalls [.openParen, .eof]
  obtain ⟨outcomes, p, hcalls, hlength⟩ := hexists 3
  obtain ⟨hp, hnext⟩ := hafter outcomes p hcalls
  obtain ⟨outcome, q, hcall, hq, -⟩ := hreturns .whole p
  exact ⟨outcomes, p, hcalls, hlength, hp.depth_eq, outcome, q, hcall,
    hq.depth_eq.trans hp.depth_eq, (hnext outcome q hcall).2⟩

end Parser

end LiveSheet
