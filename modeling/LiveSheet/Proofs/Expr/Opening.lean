import LiveSheet.Expr.Grammar

/-! # Expressions with operands left open

Some words of an expression are left open, to be filled in with operands: with numbers, or with
groups, but with nothing that what comes before or after it could tear apart. How the words are
read does not depend on what is filled in, but for one thing: parentheses and signs that are
filled in count towards the nesting that is allowed. -/

namespace LiveSheet

/-! ## Nesting -/

namespace Expr

variable {n : Nat} {e first : Expr} {rest rest' : List (BinOp × Expr)}

mutual

/-- In how many parentheses and signs a number of the expression stands, at most. -/
def nesting : Expr → Nat
  | .number _ => 0
  | .group inner => nesting inner + 1
  | .signed _ operand => nesting operand + 1
  | .chain first rest => max (nesting first) (chainNesting rest)

def chainNesting : List (BinOp × Expr) → Nat
  | [] => 0
  | (_, operand) :: rest => max (nesting operand) (chainNesting rest)

end

@[simp] theorem nesting_number (x : Float) : (number x).nesting = 0 := rfl

@[simp] theorem nesting_group (e : Expr) : (group e).nesting = e.nesting + 1 := rfl

@[simp] theorem nesting_signed (sign : Sign) (e : Expr) :
    (signed sign e).nesting = e.nesting + 1 := rfl

@[simp] theorem nesting_ofChain :
    (ofChain first rest).nesting = max first.nesting (chainNesting rest) := by
  cases rest with
  | nil => exact (Nat.max_zero _).symm
  | cons => rfl

end Expr

/-! ## Readings -/

namespace Reading

variable {p q : Prop} {reading : Reading} {e e' : Expr} {rest rest' : List Token}
  {next : Expr → List Token → Reading}

/-- Reading failed, and a cell with this text is malformed. -/
def Malformed (reading : Reading) : Prop :=
  ∃ e, reading.outcome = .error e ∧ e.toCellError = .malformed

theorem Malformed.mapError_outcome (h : reading.Malformed) :
    reading.outcome.mapError ExprError.toCellError = .error .malformed := by
  obtain ⟨e, he, hmalformed⟩ := h
  rw [he]
  exact congrArg Except.error hmalformed

/-- Reading gives `e` and leaves `rest` under a condition, and fails without it. -/
structure Gives (p : Prop) (reading : Reading) (e : Expr) (rest : List Token) : Prop where
  eq_ok : p → reading = ⟨.ok e, rest⟩
  malformed : ¬p → reading.Malformed

theorem malformed_fail {e : ExprError} (h : e.toCellError = .malformed) :
    (fail e rest).Malformed :=
  ⟨e, rfl, h⟩

theorem gives_ok (hp : p) : Gives p ⟨.ok e, rest⟩ e rest :=
  ⟨fun _ => rfl, fun h => (h hp).elim⟩

theorem Malformed.gives (h : reading.Malformed) (hp : ¬p) : Gives p reading e rest :=
  ⟨fun h => (hp h).elim, fun _ => h⟩

theorem Gives.mapError_outcome [Decidable p] (h : Gives p reading e rest) :
    reading.outcome.mapError ExprError.toCellError = if p then .ok e else .error .malformed := by
  split
  · next hp => rw [h.eq_ok hp]; rfl
  · next hp => exact (h.malformed hp).mapError_outcome

theorem Gives.of_iff (h : Gives p reading e rest) (hpq : q ↔ p) : Gives q reading e rest :=
  ⟨fun hq => h.eq_ok (hpq.mp hq), fun hq => h.malformed fun hp => hq (hpq.mpr hp)⟩

theorem Malformed.andThen (h : reading.Malformed) : (reading.andThen next).Malformed := by
  obtain ⟨e, he, hmalformed⟩ := h
  rw [Reading.andThen, he]
  exact ⟨e, rfl, hmalformed⟩

/-- What comes next fails whatever was read before. -/
theorem Gives.andThen_malformed (h : Gives p reading e rest) (hnext : (next e rest).Malformed) :
    (reading.andThen next).Malformed := by
  by_cases hp : p
  · rw [h.eq_ok hp]
    exact hnext
  · exact (h.malformed hp).andThen

theorem Gives.andThen (h : Gives p reading e rest) (hnext : Gives q (next e rest) e' rest') :
    Gives (p ∧ q) (reading.andThen next) e' rest' := by
  constructor
  · rintro ⟨hp, hq⟩
    rw [h.eq_ok hp]
    exact hnext.eq_ok hq
  · intro hpq
    by_cases hp : p
    · exact h.andThen_malformed (hnext.malformed fun hq => hpq ⟨hp, hq⟩)
    · exact (h.malformed hp).andThen

/-- What comes next succeeds whenever it is reached. -/
theorem Gives.andThen_ok (h : Gives p reading e rest) (hnext : next e rest = ⟨.ok e', rest'⟩)
    (hpq : q ↔ p) : Gives q (reading.andThen next) e' rest' := by
  have hok : Gives True (next e rest) e' rest' := hnext ▸ gives_ok trivial
  exact (h.andThen hok).of_iff (by rw [and_true, hpq])

end Reading

namespace Reader

open Reading

variable {operator? : Token → Option BinOp} {reader : Reader} {first : Expr}
  {done : List (BinOp × Expr)} {tokens rest : List Token}

/-- A chain ends before a token that is no operator of its precedence. -/
theorem chainFrom_of_head (h : ∀ token ∈ tokens.head?, operator? token = none) :
    chainFrom operator? reader first done tokens =
      ⟨.ok (.ofChain first done.reverse), tokens⟩ := by
  cases tokens with
  | nil => rw [chainFrom]
  | cons token rest => rw [chainFrom, h token rfl]

theorem chainFrom_cons {token : Token} {op : BinOp} (h : operator? token = some op) :
    chainFrom operator? reader first done (token :: rest) =
      (reader.read rest).andThen fun right =>
        chainFrom operator? reader first ((op, right) :: done) := by
  rw [chainFrom, h, andThen]
  cases (reader.read rest).outcome <;> rfl

theorem read_operand_zero : (operand 0).read tokens = readOperand none tokens := rfl

theorem read_operand_succ {n : Nat} :
    (operand (n + 1)).read tokens = readOperand (some (operand n)) tokens := rfl

end Reader

/-! ## Operands -/

/-- Whether only an operand begins with the token, and no operator is the same word. -/
def Token.opensOperand : Token → Bool
  | .number _ => true
  | .openParen => true
  | _ => false

namespace Expr

open Reading

variable {e : Expr}

/-- Wherever an operand may stand, the expression is read as that operand. -/
def Reads (e : Expr) : Prop :=
  ∀ n rest, Gives (e.nesting ≤ n) ((Reader.operand n).read (e.tokens ++ rest)) e rest

theorem reads_number (x : Float) : (number x).Reads := by
  intro n rest
  cases n <;> exact gives_ok (Nat.zero_le _)

theorem Reads.signed (h : e.Reads) (sign : Sign) : (signed sign e).Reads := by
  have hread : ∀ inner rest,
      Reader.readOperand inner ((Expr.signed sign e).tokens ++ rest) =
        Reader.readSigned inner sign (e.tokens ++ rest) := by
    intro inner rest
    cases sign <;> rfl
  intro n rest
  cases n with
  | zero =>
      refine Malformed.gives ?_ (Nat.not_succ_le_zero _)
      rw [Reader.read_operand_zero, hread]
      exact malformed_fail rfl
  | succ n =>
      rw [Reader.read_operand_succ, hread]
      exact (h n rest).andThen_ok rfl Nat.add_le_add_iff_right

/-- The operand is a sum by itself before whatever is no operator. -/
theorem Reads.sum (h : e.Reads) (n : Nat) (rest : List Token)
    (hmul : ∀ token ∈ rest.head?, Reader.multiplicative? token = none)
    (hadd : ∀ token ∈ rest.head?, Reader.additive? token = none) :
    Gives (e.nesting ≤ n) ((Reader.operand n).sum.read (e.tokens ++ rest)) e rest := by
  have hend : ∀ {operator? : Token → Option BinOp} {reader : Reader},
      (∀ token ∈ rest.head?, operator? token = none) →
      Reader.chainFrom operator? reader e [] rest = ⟨.ok e, rest⟩ :=
    Reader.chainFrom_of_head
  exact ((h n rest).andThen_ok (hend hmul) Iff.rfl).andThen_ok (hend hadd) Iff.rfl

theorem Reads.group (h : e.Reads) : (group e).Reads := by
  have hread : ∀ inner rest, Reader.readOperand inner ((Expr.group e).tokens ++ rest) =
      Reader.readGroup inner (e.tokens ++ .closeParen :: rest) := by
    intro inner rest
    rw [tokens, List.append_assoc]
    rfl
  intro n rest
  cases n with
  | zero =>
      refine Malformed.gives ?_ (Nat.not_succ_le_zero _)
      rw [Reader.read_operand_zero, hread]
      exact malformed_fail rfl
  | succ n =>
      rw [Reader.read_operand_succ, hread]
      have hsum := h.sum n (.closeParen :: rest) (by rintro _ ⟨⟩; rfl) (by rintro _ ⟨⟩; rfl)
      rw [Reader.readGroup]
      exact hsum.andThen_ok rfl Nat.add_le_add_iff_right

/-- The operand is an expression by itself. -/
theorem Reads.parse (h : e.Reads) :
    Gives (e.nesting ≤ maxNesting) (Expr.parse (e.tokens ++ [.eof])) e [.eof] := by
  have hsum := h.sum maxNesting [.eof] (by rintro _ ⟨⟩; rfl) (by rintro _ ⟨⟩; rfl)
  exact hsum.andThen_ok rfl Iff.rfl

/-- An expression that can stand for an operand of any other expression. -/
structure IsOperand (e : Expr) : Prop where
  reads : e.Reads
  opens : ∃ token rest, e.tokens = token :: rest ∧ token.opensOperand = true

theorem isOperand_number (x : Float) : (number x).IsOperand :=
  ⟨reads_number x, _, _, rfl, rfl⟩

theorem Reads.isOperand_group (h : e.Reads) : (Expr.group e).IsOperand :=
  ⟨h.group, _, _, rfl, rfl⟩

end Expr

/-! ## Words and their fillings -/

/-- A word of an expression in which some operands are left open. -/
inductive Word (α : Type) where
  | token (t : Token)
  | operand (a : α)

namespace Word

def map {α β : Type} (f : α → β) : Word α → Word β
  | token t => token t
  | operand a => operand (f a)

end Word

/-- An expression in which some operands are left open. -/
inductive OpenExpr (α : Type) where
  | number (x : Float)
  | operand (a : α)
  | chain (first : OpenExpr α) (rest : List (BinOp × OpenExpr α))
  | signed (sign : Sign) (operand : OpenExpr α)
  | group (inner : OpenExpr α)

/-- What is filled in for the operands that were left open. -/
structure Filling (α : Type) where
  expr : α → Expr
  isOperand : ∀ a, (expr a).IsOperand

variable {α : Type}

namespace OpenExpr

def ofChain (first : OpenExpr α) (rest : List (BinOp × OpenExpr α)) : OpenExpr α :=
  if rest.isEmpty then first else chain first rest

mutual

def fill (σ : Filling α) : OpenExpr α → Expr
  | number x => .number x
  | operand a => σ.expr a
  | chain first rest => .chain (fill σ first) (fillChain σ rest)
  | signed sign e => .signed sign (fill σ e)
  | group e => .group (fill σ e)

def fillChain (σ : Filling α) : List (BinOp × OpenExpr α) → List (BinOp × Expr)
  | [] => []
  | (op, e) :: rest => (op, fill σ e) :: fillChain σ rest

end

theorem fill_ofChain (σ : Filling α) (first : OpenExpr α) (rest : List (BinOp × OpenExpr α)) :
    (ofChain first rest).fill σ = .ofChain (first.fill σ) (fillChain σ rest) := by
  cases rest with
  | nil => rfl
  | cons part rest => rfl

mutual

/-- The nesting of what is filled in is all that may be added to the nesting. -/
theorem nesting_fill_le (σ ρ : Filling α) (k : Nat)
    (h : ∀ a, (σ.expr a).nesting ≤ (ρ.expr a).nesting + k) :
    ∀ e : OpenExpr α, (e.fill σ).nesting ≤ (e.fill ρ).nesting + k
  | number _ => Nat.zero_le _
  | operand a => h a
  | chain first rest => by
      have hfirst := nesting_fill_le σ ρ k h first
      have hrest := chainNesting_fill_le σ ρ k h rest
      simp only [fill, Expr.nesting]
      omega
  | signed _ e => by
      have he := nesting_fill_le σ ρ k h e
      simp only [fill, Expr.nesting]
      omega
  | group e => by
      have he := nesting_fill_le σ ρ k h e
      simp only [fill, Expr.nesting]
      omega

theorem chainNesting_fill_le (σ ρ : Filling α) (k : Nat)
    (h : ∀ a, (σ.expr a).nesting ≤ (ρ.expr a).nesting + k) :
    ∀ parts : List (BinOp × OpenExpr α),
      Expr.chainNesting (fillChain σ parts) ≤ Expr.chainNesting (fillChain ρ parts) + k
  | [] => Nat.zero_le _
  | (_, e) :: parts => by
      have he := nesting_fill_le σ ρ k h e
      have hparts := chainNesting_fill_le σ ρ k h parts
      simp only [fillChain, Expr.chainNesting]
      omega

end

mutual

/-- Only the values of what is filled in matter for the value. -/
theorem eval_fill (σ ρ : Filling α) (h : ∀ a, (σ.expr a).eval = (ρ.expr a).eval) :
    ∀ e : OpenExpr α, (e.fill σ).eval = (e.fill ρ).eval
  | number _ => rfl
  | operand a => h a
  | chain first rest => by
      simp only [fill, Expr.eval, eval_fill σ ρ h first]
      split
      · exact evalChain_fill σ ρ h rest _
      · rfl
  | signed _ e => by simp only [fill, Expr.eval, eval_fill σ ρ h e]
  | group e => eval_fill σ ρ h e

theorem evalChain_fill (σ ρ : Filling α) (h : ∀ a, (σ.expr a).eval = (ρ.expr a).eval) :
    ∀ (parts : List (BinOp × OpenExpr α)) (left : Float),
      Expr.evalChain left (fillChain σ parts) = Expr.evalChain left (fillChain ρ parts)
  | [], _ => rfl
  | (_, e) :: parts, left => by
      simp only [fillChain, Expr.evalChain, eval_fill σ ρ h e, evalChain_fill σ ρ h parts]

end

end OpenExpr

namespace Filling

variable (σ : Filling α)

def tokens : List (Word α) → List Token
  | [] => []
  | .token t :: rest => t :: tokens rest
  | .operand a :: rest => (σ.expr a).tokens ++ tokens rest

theorem tokens_append (first rest : List (Word α)) :
    σ.tokens (first ++ rest) = σ.tokens first ++ σ.tokens rest := by
  induction first with
  | nil => rfl
  | cons word first ih =>
      cases word with
      | token t => rw [List.cons_append, tokens, tokens, ih, List.cons_append]
      | operand a => rw [List.cons_append, tokens, tokens, ih, List.append_assoc]

theorem tokens_map_token (ts : List Token) : σ.tokens (ts.map .token) = ts := by
  induction ts with
  | nil => rfl
  | cons t ts ih => rw [List.map_cons, tokens, ih]

/-- What is filled in begins with a token that begins nothing but an operand. -/
theorem exists_cons_tokens_operand (a : α) (rest : List (Word α)) : ∃ token tokens,
    σ.tokens (.operand a :: rest) = token :: tokens ∧ token.opensOperand = true := by
  obtain ⟨token, rest', htokens, hopens⟩ := (σ.isOperand a).opens
  exact ⟨token, rest' ++ σ.tokens rest, by rw [tokens, htokens, List.cons_append], hopens⟩

variable {β : Type}

/-- The filling that asks for operands by other names. -/
def comap (σ : Filling β) (f : α → β) : Filling α where
  expr a := σ.expr (f a)
  isOperand a := σ.isOperand (f a)

theorem tokens_map (σ : Filling β) (f : α → β) (words : List (Word α)) :
    σ.tokens (words.map (Word.map f)) = (σ.comap f).tokens words := by
  induction words with
  | nil => rfl
  | cons word words ih =>
      cases word with
      | token t => rw [List.map_cons, Word.map, tokens, tokens, ih]
      | operand a => rw [List.map_cons, Word.map, tokens, tokens, ih]; rfl

end Filling

/-! ## Readers of open expressions -/

open Reading

/-- How some words are read, whatever is filled in: either it always fails, or there is one open
expression that is read as far as the nesting of what is filled in allows. -/
def Opens (n : Nat) (read : List Token → Reading) (words : List (Word α)) : Prop :=
  (∀ σ : Filling α, (read (σ.tokens words)).Malformed) ∨
    ∃ (e : OpenExpr α) (rest : List (Word α)), rest.length ≤ words.length ∧
      ∀ σ : Filling α,
        Gives ((e.fill σ).nesting ≤ n) (read (σ.tokens words)) (e.fill σ) (σ.tokens rest)

/-- Reading goes on after a token. -/
theorem Opens.cons {n : Nat} {read read' : List Token → Reading} {words : List (Word α)}
    {t : Token} (h : Opens n read' words)
    (hread : ∀ tokens, read (t :: tokens) = read' tokens := by exact fun _ => rfl) :
    Opens n read (.token t :: words) := by
  rcases h with hfail | ⟨e, rest, hle, he⟩
  · exact .inl fun σ => (hread _).symm ▸ hfail σ
  · exact .inr ⟨e, rest, Nat.le_succ_of_le hle, fun σ => (hread _).symm ▸ he σ⟩

namespace Reader

variable {n : Nat} {operator? : Token → Option BinOp} {reader : Reader}
  {words : List (Word α)}

/-- How the operators of a chain and their right operands are read, whatever is filled in and
whatever was read before. Only the operands that are read here count for the nesting. -/
def OpensChain (n : Nat) (operator? : Token → Option BinOp) (reader : Reader)
    (words : List (Word α)) : Prop :=
  (∀ (σ : Filling α) first done,
      (chainFrom operator? reader first done (σ.tokens words)).Malformed) ∨
    ∃ (parts : List (BinOp × OpenExpr α)) (rest : List (Word α)), rest.length ≤ words.length ∧
      ∀ (σ : Filling α) first done,
        Gives (Expr.chainNesting (OpenExpr.fillChain σ parts) ≤ n)
          (chainFrom operator? reader first done (σ.tokens words))
          (.ofChain first (done.reverse ++ OpenExpr.fillChain σ parts)) (σ.tokens rest)

/-- A chain ends before whatever is no operator. -/
theorem opensChain_of_head
    (h : ∀ σ : Filling α, ∀ token ∈ (σ.tokens words).head?, operator? token = none) :
    OpensChain n operator? reader words := by
  refine .inr ⟨[], words, Nat.le_refl _, fun σ first done => ?_⟩
  rw [chainFrom_of_head (h σ), OpenExpr.fillChain, List.append_nil]
  exact gives_ok (Nat.zero_le _)

theorem opensChain (hoperator : ∀ token, token.opensOperand = true → operator? token = none)
    (hreader : ∀ words : List (Word α), Opens n reader.read words) (words : List (Word α)) :
    OpensChain n operator? reader words := by
  cases words with
  | nil => exact opensChain_of_head (by rintro _ _ ⟨⟩)
  | cons word words =>
      cases word with
      | operand a =>
          -- Nothing that is filled in begins with an operator.
          refine opensChain_of_head fun σ => ?_
          obtain ⟨token, tokens, htokens, hopens⟩ := σ.exists_cons_tokens_operand a words
          rw [htokens]
          rintro _ ⟨⟩
          exact hoperator token hopens
      | token t =>
          cases hop : operator? t with
          | none => exact opensChain_of_head (by rintro _ _ ⟨⟩; exact hop)
          | some op =>
              simp only [OpensChain, Filling.tokens, chainFrom_cons hop]
              rcases hreader words with hfail | ⟨right, rest, hle, hright⟩
              · exact .inl fun σ first done => (hfail σ).andThen
              -- A right operand may be read too deep for some fillings and not for others; what
              -- comes after it fails for all of them or for none.
              have : rest.length < words.length + 1 := Nat.lt_succ_of_le hle
              rcases opensChain hoperator hreader rest with hfail | ⟨parts, rest', hle', hparts⟩
              · exact .inl fun σ first done => (hright σ).andThen_malformed (hfail σ first _)
              refine .inr ⟨(op, right) :: parts, rest', by simp only [List.length_cons]; omega,
                fun σ first done => ?_⟩
              have hchain := hparts σ first ((op, right.fill σ) :: done)
              rw [List.reverse_cons, List.append_assoc, List.singleton_append] at hchain
              refine ((hright σ).andThen hchain).of_iff ?_
              rw [OpenExpr.fillChain, Expr.chainNesting, Nat.max_le]
termination_by words.length

theorem chain_opens (hoperator : ∀ token, token.opensOperand = true → operator? token = none)
    (hreader : ∀ words : List (Word α), Opens n reader.read words) (words : List (Word α)) :
    Opens n (reader.chain operator?).read words := by
  rcases hreader words with hfail | ⟨first, rest, hle, hfirst⟩
  · exact .inl fun σ => (hfail σ).andThen
  rcases opensChain hoperator hreader rest with hfail | ⟨parts, rest', hle', hparts⟩
  · exact .inl fun σ => (hfirst σ).andThen_malformed (hfail σ _ [])
  refine .inr ⟨.ofChain first parts, rest', Nat.le_trans hle' hle, fun σ => ?_⟩
  rw [OpenExpr.fill_ofChain]
  refine ((hfirst σ).andThen (hparts σ (first.fill σ) [])).of_iff ?_
  rw [Expr.nesting_ofChain, Nat.max_le]

theorem sum_opens (hreader : ∀ words : List (Word α), Opens n reader.read words)
    (words : List (Word α)) : Opens n reader.sum.read words := by
  refine chain_opens ?_ (chain_opens ?_ hreader) words
  · intro token htoken
    cases token <;> first | rfl | cases htoken
  · intro token htoken
    cases token <;> first | rfl | cases htoken

theorem readSigned_opens (hreader : ∀ words : List (Word α), Opens n reader.read words)
    (sign : Sign) (words : List (Word α)) :
    Opens (n + 1) (readSigned (some reader) sign) words := by
  rcases hreader words with hfail | ⟨e, rest, hle, he⟩
  · exact .inl fun σ => (hfail σ).andThen
  refine .inr ⟨.signed sign e, rest, hle, fun σ => ?_⟩
  rw [OpenExpr.fill]
  exact (he σ).andThen_ok rfl Nat.add_le_add_iff_right

/-- A group ends with its parenthesis, which is never filled in. -/
theorem readGroup_opens (hreader : ∀ words : List (Word α), Opens n reader.read words)
    (words : List (Word α)) : Opens (n + 1) (readGroup (some reader)) words := by
  rcases sum_opens hreader words with hfail | ⟨e, rest, hle, he⟩
  · exact .inl fun σ => (hfail σ).andThen
  cases rest with
  | nil => exact .inl fun σ => (he σ).andThen_malformed (malformed_fail rfl)
  | cons word rest =>
      cases word with
      | operand a =>
          refine .inl fun σ => (he σ).andThen_malformed ?_
          obtain ⟨token, tokens, htokens, hopens⟩ := σ.exists_cons_tokens_operand a rest
          rw [htokens]
          cases token <;> first | exact malformed_fail rfl | cases hopens
      | token t =>
          by_cases hclose : t = .closeParen
          · subst hclose
            refine .inr ⟨.group e, rest, Nat.le_of_succ_le hle, fun σ => ?_⟩
            rw [OpenExpr.fill, readGroup]
            exact (he σ).andThen_ok rfl Nat.add_le_add_iff_right
          · refine .inl fun σ => (he σ).andThen_malformed ?_
            cases t <;> first | exact malformed_fail rfl | exact (hclose rfl).elim

/-- The words of an operand are read alike whatever is filled in, since what is filled in is read
as an operand itself. -/
theorem operand_opens (n : Nat) (words : List (Word α)) : Opens n (operand n).read words := by
  match words with
  | [] => exact .inl fun σ => by cases n <;> exact malformed_fail rfl
  | .operand a :: words =>
      exact .inr ⟨.operand a, words, Nat.le_succ _, fun σ => (σ.isOperand a).reads n _⟩
  | .token t :: words =>
      cases t with
      | number x =>
          exact .inr ⟨.number x, words, Nat.le_succ _, fun σ => Expr.reads_number x n _⟩
      | minus =>
          cases n with
          | zero => exact .inl fun σ => malformed_fail rfl
          | succ n => exact (readSigned_opens (operand_opens n) .minus words).cons
      | plus =>
          cases n with
          | zero => exact .inl fun σ => malformed_fail rfl
          | succ n => exact (readSigned_opens (operand_opens n) .plus words).cons
      | openParen =>
          cases n with
          | zero => exact .inl fun σ => malformed_fail rfl
          | succ n => exact (readGroup_opens (operand_opens n) words).cons
      | _ => exact .inl fun σ => by cases n <;> exact malformed_fail rfl
termination_by n

end Reader

/-- How an expression is read up to its end, whatever is filled in. -/
theorem Expr.parse_opens (words : List (Word α)) : Opens Expr.maxNesting Expr.parse words := by
  rcases Reader.sum_opens (Reader.operand_opens Expr.maxNesting) words with
    hfail | ⟨e, rest, hle, he⟩
  · exact .inl fun σ => (hfail σ).andThen
  cases rest with
  | nil =>
      refine .inr ⟨e, [], hle, fun σ => ?_⟩
      exact (he σ).andThen_ok rfl Iff.rfl
  | cons word rest =>
      cases word with
      | operand a =>
          refine .inl fun σ => (he σ).andThen_malformed ?_
          obtain ⟨token, tokens, htokens, hopens⟩ := σ.exists_cons_tokens_operand a rest
          rw [htokens]
          cases token <;> first | exact malformed_fail rfl | cases hopens
      | token t =>
          by_cases hend : t = .eof
          · subst hend
            refine .inr ⟨e, .token .eof :: rest, hle, fun σ => ?_⟩
            exact (he σ).andThen_ok rfl Iff.rfl
          · refine .inl fun σ => (he σ).andThen_malformed ?_
            cases t <;> first | exact malformed_fail rfl | exact (hend rfl).elim

/-- A list of words is no expression, whatever is filled in, or one expression that is too deep for
some fillings. -/
theorem Expr.parse_filled (words : List (Word α)) :
    (∀ σ : Filling α, (parse (σ.tokens words ++ [.eof])).outcome.mapError ExprError.toCellError =
      .error .malformed) ∨
    ∃ e : OpenExpr α, ∀ σ : Filling α,
      (parse (σ.tokens words ++ [.eof])).outcome.mapError ExprError.toCellError =
        if (e.fill σ).nesting ≤ maxNesting then .ok (e.fill σ) else .error .malformed := by
  have hend : ∀ σ : Filling α, σ.tokens (words ++ [.token .eof]) = σ.tokens words ++ [.eof] :=
    fun σ => σ.tokens_append words _
  rcases parse_opens (words ++ [.token .eof]) with hfail | ⟨e, rest, -, he⟩
  · refine .inl fun σ => ?_
    rw [← hend]
    exact (hfail σ).mapError_outcome
  · refine .inr ⟨e, fun σ => ?_⟩
    rw [← hend]
    exact (he σ).mapError_outcome

end LiveSheet
