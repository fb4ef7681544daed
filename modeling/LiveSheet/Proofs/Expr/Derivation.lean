import LiveSheet.Proofs.Expr.Opening

/-! # The grammar and its parser

The grammar as a relation between words and trees, without a reader, a rest or a limit:

* a sentence is products joined by `+` and `-`,
* a product is operands joined by `*` and `/`,
* an operand is a number, a sentence in parentheses, or a sign in front of an operand.

Words have at most one tree. The parser finds it exactly if the words before the end of the
expression have one in which no number stands too deep, and otherwise finds fault with a token. -/

namespace LiveSheet

namespace Grammar

/-- Operators of one precedence, each in front of the part that is its right operand. -/
inductive Tail (ops : List BinOp) (Part : List Token → Expr → Prop) :
    List Token → List (BinOp × Expr) → Prop
  | nil : Tail ops Part [] []
  | cons {op : BinOp} {ts us : List Token} {e : Expr} {rest : List (BinOp × Expr)}
      (hop : op ∈ ops) (hpart : Part ts e) (htail : Tail ops Part us rest) :
      Tail ops Part (op.token :: (ts ++ us)) ((op, e) :: rest)

/-- Parts joined by operators of one precedence. Its tree is flat, and that of a part by itself
is the tree of the part. -/
inductive Chain (ops : List BinOp) (Part : List Token → Expr → Prop) :
    List Token → Expr → Prop
  | join {ts us : List Token} {first : Expr} {rest : List (BinOp × Expr)}
      (hfirst : Part ts first) (htail : Tail ops Part us rest) :
      Chain ops Part (ts ++ us) (.ofChain first rest)

inductive Operand : List Token → Expr → Prop
  | number (x : Float) : Operand [.number x] (.number x)
  | signed (sign : Sign) {ts : List Token} {e : Expr} (he : Operand ts e) :
      Operand (sign.token :: ts) (.signed sign e)
  | group {ts : List Token} {e : Expr}
      (he : Chain [.add, .sub] (Chain [.mul, .div] Operand) ts e) :
      Operand (.openParen :: (ts ++ [.closeParen])) (.group e)

def Product : List Token → Expr → Prop :=
  Chain [.mul, .div] Operand

def Sentence : List Token → Expr → Prop :=
  Chain [.add, .sub] Product

variable {ops : List BinOp} {Part Part' : List Token → Expr → Prop} {ts : List Token} {e : Expr}

theorem Chain.mono (h : Chain ops Part ts e) (hpart : ∀ ts e, Part ts e → Part' ts e) :
    Chain ops Part' ts e := by
  obtain ⟨hfirst, htail⟩ := h
  refine .join (hpart _ _ hfirst) ?_
  induction htail with
  | nil => exact .nil
  | cons hop hright _ ih => exact .cons hop (hpart _ _ hright) ih

/-- Induction over operands. What is shown of the operands in a group is known of the chains of
the group. -/
theorem Operand.induct {motive : List Token → Expr → Prop}
    (number : ∀ x, motive [.number x] (.number x))
    (signed : ∀ sign ts e, motive ts e → motive (sign.token :: ts) (.signed sign e))
    (group : ∀ ts e, Chain [.add, .sub] (Chain [.mul, .div] motive) ts e →
      motive (.openParen :: (ts ++ [.closeParen])) (.group e))
    (h : Operand ts e) : motive ts e :=
  @Operand.rec (fun ts e _ => motive ts e)
    (fun ts e _ => Chain [.add, .sub] (Chain [.mul, .div] motive) ts e)
    (fun ts e _ => Chain [.mul, .div] motive ts e)
    (fun ts parts _ => Tail [.add, .sub] (Chain [.mul, .div] motive) ts parts)
    (fun ts parts _ => Tail [.mul, .div] motive ts parts)
    number (fun sign _ _ _ => signed sign _ _) (fun _ => group _ _)
    (fun _ _ => .join) (fun _ _ => .join)
    .nil (fun hop _ _ => .cons hop) .nil (fun hop _ _ => .cons hop) ts e h

theorem Chain.eof_not_mem (h : Chain ops (fun ts _ => .eof ∉ ts) ts e) : .eof ∉ ts := by
  obtain ⟨hfirst, htail⟩ := h
  refine List.not_mem_append hfirst ?_
  induction htail with
  | nil => exact List.not_mem_nil
  | @cons op _ _ _ _ _ hright _ ih =>
      have hop : .eof ≠ op.token := by cases op <;> exact Token.noConfusion
      exact List.not_mem_cons_of_ne_of_not_mem hop (List.not_mem_append hright ih)

/-- No sentence reaches beyond the end of the expression. -/
theorem Sentence.eof_not_mem (h : Sentence ts e) : .eof ∉ ts := by
  have hoperand : ∀ ts e, Operand ts e → .eof ∉ ts := by
    intro ts e he
    refine he.induct (motive := fun ts _ => .eof ∉ ts) ?_ ?_ ?_
    · exact fun x => by simp
    · intro sign ts e ih
      cases sign <;> simpa [Sign.token] using ih
    · intro ts e ih
      simpa using (ih.mono fun _ _ => Chain.eof_not_mem).eof_not_mem
  exact (h.mono fun _ _ he => (he.mono hoperand).eof_not_mem).eof_not_mem

/-! ## Where a sentence ends -/

/-- The words of a list of tokens: all before the end of the expression. -/
def words (tokens : List Token) : List Token :=
  tokens.takeWhile (· ≠ .eof)

/-- The tokens are the words and what comes after them: the end, or nothing at all. -/
theorem exists_eq_words_append (tokens : List Token) :
    ∃ rest, tokens = words tokens ++ rest ∧ ∀ token ∈ rest.head?, token = .eof := by
  refine ⟨tokens.dropWhile (· ≠ .eof), List.takeWhile_append_dropWhile.symm, ?_⟩
  intro token htoken
  have hhead := List.head?_dropWhile_not (fun t : Token => decide (t ≠ .eof)) tokens
  rw [Option.mem_def.mp htoken] at hhead
  simpa using hhead

theorem words_append {rest : List Token} (hts : .eof ∉ ts)
    (hrest : ∀ token ∈ rest.head?, token = .eof) : words (ts ++ rest) = ts := by
  have hall : ∀ token ∈ ts, decide (token ≠ .eof) = true :=
    fun token htoken => decide_eq_true fun heq => hts (heq ▸ htoken)
  have hnone : rest.takeWhile (· ≠ .eof) = [] := by
    cases rest with
    | nil => rfl
    | cons token rest => simp [hrest token rfl]
  rw [words, List.takeWhile_append_of_pos hall, hnone, List.append_nil]

end Grammar

/-- Whether an expression was refused for a token, or for the lack of one, at a place where the
grammar asks for another. -/
def ExprError.isUnexpectedToken : ExprError → Bool
  | .unexpectedToken _ | .unclosedGroup _ | .nestedTooDeeply => true
  | _ => false

/-! ## What a reader finds has been derived -/

namespace Reading

variable {Good Good' : Expr → List Token → Prop} {reading : Reading} {e : Expr}
  {err : ExprError} {rest : List Token} {next : Expr → List Token → Reading}

/-- What was read is as it should be, and a failure is the fault of a token. -/
structure Sound (Good : Expr → List Token → Prop) (reading : Reading) : Prop where
  good : ∀ e, reading.outcome = .ok e → Good e reading.rest
  fault : ∀ err, reading.outcome = .error err → err.isUnexpectedToken = true

theorem sound_ok (h : Good e rest) : Sound Good ⟨.ok e, rest⟩ where
  good := by rintro _ ⟨⟩; exact h
  fault := by rintro _ ⟨⟩

theorem sound_fail (h : err.isUnexpectedToken = true) : Sound Good (fail err rest) where
  good := by rintro _ ⟨⟩
  fault := by rintro _ ⟨⟩; exact h

theorem Sound.mono (h : reading.Sound Good) (hgood : ∀ e rest, Good e rest → Good' e rest) :
    reading.Sound Good' :=
  ⟨fun e he => hgood e _ (h.good e he), h.fault⟩

theorem Sound.andThen (h : reading.Sound Good)
    (hnext : ∀ e rest, Good e rest → (next e rest).Sound Good') :
    (reading.andThen next).Sound Good' := by
  unfold Reading.andThen
  split
  · next e he => exact hnext e _ (h.good e he)
  · next err herr => exact sound_fail (h.fault err herr)

end Reading

namespace Reader

open Grammar Reading

variable {n : Nat} {operator? : Token → Option BinOp} {ops : List BinOp} {reader : Reader}
  {Part : List Token → Expr → Prop}

/-- The reader reads phrases with no more than the given nesting, and leaves what comes after. -/
def Sound (n : Nat) (Phrase : List Token → Expr → Prop) (reader : Reader) : Prop :=
  ∀ tokens, (reader.read tokens).Sound fun e rest =>
    ∃ ts, tokens = ts ++ rest ∧ Phrase ts e ∧ e.nesting ≤ n

/-- The operators that a chain goes on with are those of its precedence. -/
def Operators (operator? : Token → Option BinOp) (ops : List BinOp) : Prop :=
  ∀ token op, operator? token = some op ↔ op ∈ ops ∧ token = op.token

theorem operators_additive : Operators additive? [.add, .sub] := by
  intro token op
  cases token <;> cases op <;> simp [additive?, BinOp.token]

theorem operators_multiplicative : Operators multiplicative? [.mul, .div] := by
  intro token op
  cases token <;> cases op <;> simp [multiplicative?, BinOp.token]

theorem Sound.chainFrom (hops : Operators operator? ops) (hreader : reader.Sound n Part)
    (first : Expr) (done : List (BinOp × Expr)) (tokens : List Token) :
    (chainFrom operator? reader first done tokens).Sound fun e rest =>
      ∃ us parts, tokens = us ++ rest ∧ Tail ops Part us parts ∧
        e = .ofChain first (done.reverse ++ parts) ∧ Expr.chainNesting parts ≤ n := by
  fun_induction Reader.chainFrom operator? reader first done tokens with
  | case1 done => exact sound_ok ⟨[], [], rfl, .nil, by rw [List.append_nil], Nat.zero_le _⟩
  | case2 done token rest =>
      exact sound_ok ⟨[], [], rfl, .nil, by rw [List.append_nil], Nat.zero_le _⟩
  | case3 done token rest op hop _ err herr => exact sound_fail ((hreader rest).fault err herr)
  | case4 done token rest op hop _ right hright ih =>
      obtain ⟨hmem, rfl⟩ := (hops token op).mp hop
      obtain ⟨ts, hrest, hpart, hnesting⟩ := (hreader rest).good right hright
      refine ih.mono ?_
      rintro e rest' ⟨us, parts, hrest', htail, rfl, hnesting'⟩
      refine ⟨op.token :: (ts ++ us), (op, right) :: parts, ?_, .cons hmem hpart htail, ?_, ?_⟩
      · rw [List.cons_append, List.append_assoc, ← hrest', ← hrest]
      · rw [List.reverse_cons, List.append_assoc, List.singleton_append]
      · exact Nat.max_le.mpr ⟨hnesting, hnesting'⟩

theorem Sound.chain (hops : Operators operator? ops) (hreader : reader.Sound n Part) :
    (reader.chain operator?).Sound n (Chain ops Part) := by
  intro tokens
  refine (hreader tokens).andThen ?_
  rintro first rest ⟨ts, rfl, hfirst, hnesting⟩
  refine (hreader.chainFrom hops first [] rest).mono ?_
  rintro _ rest' ⟨us, parts, rfl, hparts, rfl, hnesting'⟩
  refine ⟨ts ++ us, (List.append_assoc _ _ _).symm, .join hfirst hparts, ?_⟩
  rw [Expr.nesting_ofChain]
  exact Nat.max_le.mpr ⟨hnesting, hnesting'⟩

theorem Sound.sum (hreader : reader.Sound n Operand) : reader.sum.Sound n Sentence :=
  (hreader.chain operators_multiplicative).chain operators_additive

theorem Sound.readSigned (hreader : reader.Sound n Operand) (sign : Sign) (tokens : List Token) :
    (readSigned (some reader) sign tokens).Sound fun e rest =>
      ∃ ts, sign.token :: tokens = ts ++ rest ∧ Operand ts e ∧ e.nesting ≤ n + 1 := by
  refine (hreader tokens).andThen ?_
  rintro e rest ⟨ts, rfl, he, hnesting⟩
  exact sound_ok ⟨sign.token :: ts, rfl, .signed sign he, Nat.succ_le_succ hnesting⟩

theorem Sound.readGroup (hreader : reader.Sound n Operand) (tokens : List Token) :
    (readGroup (some reader) tokens).Sound fun e rest =>
      ∃ ts, .openParen :: tokens = ts ++ rest ∧ Operand ts e ∧ e.nesting ≤ n + 1 := by
  unfold Reader.readGroup
  refine (hreader.sum tokens).andThen ?_
  rintro e rest ⟨ts, rfl, he, hnesting⟩
  split
  · next rest =>
    refine sound_ok ⟨_, ?_, .group he, Nat.succ_le_succ hnesting⟩
    simp
  · exact sound_fail rfl

theorem sound_operand (n : Nat) : (operand n).Sound n Operand := by
  induction n with
  | zero =>
      intro tokens
      rw [read_operand_zero]
      unfold readOperand
      split
      · next x rest => exact sound_ok ⟨[.number x], rfl, .number x, Nat.zero_le _⟩
      all_goals exact sound_fail rfl
  | succ n ih =>
      intro tokens
      rw [read_operand_succ]
      unfold readOperand
      split
      · next x rest => exact sound_ok ⟨[.number x], rfl, .number x, Nat.zero_le _⟩
      · exact ih.readSigned .minus _
      · exact ih.readSigned .plus _
      · exact ih.readGroup _
      · exact sound_fail rfl

/-! ## What has been derived is read -/

/-- The reader reads every phrase with no more than the given nesting, before whatever may come
after one. -/
def Complete (n : Nat) (Phrase : List Token → Expr → Prop) (follows : Token → Prop)
    (reader : Reader) : Prop :=
  ∀ ts e, Phrase ts e → e.nesting ≤ n → ∀ rest, (∀ token ∈ rest.head?, follows token) →
    reader.read (ts ++ rest) = ⟨.ok e, rest⟩

variable {follows : Token → Prop} {us rest : List Token} {parts : List (BinOp × Expr)}

/-- After a part comes the next operator, or what comes after the chain. -/
theorem follows_of_tail (htail : Tail ops Part us parts)
    (hfollows : ∀ op ∈ ops, follows op.token) (hrest : ∀ token ∈ rest.head?, follows token) :
    ∀ token ∈ (us ++ rest).head?, follows token := by
  cases htail with
  | nil => exact hrest
  | cons hop =>
      rintro _ ⟨⟩
      exact hfollows _ hop

theorem Complete.chainFrom (hops : Operators operator? ops)
    (hreader : reader.Complete n Part follows) (hfollows : ∀ op ∈ ops, follows op.token)
    (htail : Tail ops Part us parts) (hnesting : Expr.chainNesting parts ≤ n)
    (hrest : ∀ token ∈ rest.head?, follows token ∧ operator? token = none) (first : Expr)
    (done : List (BinOp × Expr)) :
    chainFrom operator? reader first done (us ++ rest) =
      ⟨.ok (.ofChain first (done.reverse ++ parts)), rest⟩ := by
  induction htail generalizing done with
  | nil =>
      rw [List.nil_append, List.append_nil]
      exact chainFrom_of_head fun token htoken => (hrest token htoken).2
  | @cons op ts us right parts hop hpart htail ih =>
      obtain ⟨hright, hparts⟩ := Nat.max_le.mp hnesting
      have hnext := follows_of_tail htail hfollows fun token htoken => (hrest token htoken).1
      have hread := hreader ts right hpart hright (us ++ rest) hnext
      rw [List.cons_append, List.append_assoc,
        chainFrom_cons ((hops op.token op).mpr ⟨hop, rfl⟩), hread]
      have hchain := ih hparts ((op, right) :: done)
      rwa [List.reverse_cons, List.append_assoc, List.singleton_append] at hchain

theorem Complete.chain (hops : Operators operator? ops)
    (hreader : reader.Complete n Part follows) (hfollows : ∀ op ∈ ops, follows op.token) :
    (reader.chain operator?).Complete n (Chain ops Part)
      fun token => follows token ∧ operator? token = none := by
  intro _ _ hchain hnesting rest hrest
  obtain ⟨hfirst, htail⟩ := hchain
  rw [Expr.nesting_ofChain] at hnesting
  obtain ⟨hnesting, hnesting'⟩ := Nat.max_le.mp hnesting
  have hnext := follows_of_tail htail hfollows fun token htoken => (hrest token htoken).1
  have hread := hreader _ _ hfirst hnesting _ hnext
  have hgoes := hreader.chainFrom hops hfollows htail hnesting' hrest
  rw [List.append_assoc]
  simp only [Reader.chain, hread]
  exact hgoes _ []

/-- What neither joins operands nor products ends a sentence. -/
def EndsSentence (token : Token) : Prop :=
  multiplicative? token = none ∧ additive? token = none

theorem Complete.sum (hreader : reader.Complete n Operand fun _ => True) :
    reader.sum.Complete n Sentence EndsSentence := by
  have hproduct := hreader.chain operators_multiplicative fun _ _ => trivial
  have hsum := hproduct.chain operators_additive (by simp [multiplicative?, BinOp.token])
  intro ts e he hnesting rest hrest
  exact hsum ts e he hnesting rest fun token htoken =>
    ⟨⟨trivial, (hrest token htoken).1⟩, (hrest token htoken).2⟩

/-- An operand is read in front of anything, as long as its nesting is allowed. -/
theorem complete_operand (n : Nat) : (operand n).Complete n Operand fun _ => True := by
  induction n with
  | zero =>
      intro ts e he hnesting rest _
      cases he with
      | number x => rfl
      | signed => cases hnesting
      | group => cases hnesting
  | succ n ih =>
      intro ts e he hnesting rest _
      cases he with
      | number x => rfl
      | @signed sign ts e he =>
          have hread := ih ts e he (Nat.le_of_succ_le_succ hnesting) rest fun _ _ => trivial
          cases sign <;>
            simp [Sign.token, read_operand_succ, readOperand, readSigned, hread, Reading.andThen]
      | @group ts e he =>
          have hread := ih.sum ts e he (Nat.le_of_succ_le_succ hnesting) (.closeParen :: rest)
            (by rintro _ ⟨⟩; exact ⟨rfl, rfl⟩)
          simp [read_operand_succ, readOperand, readGroup, hread, Reading.andThen]

end Reader

/-! ## Sentences and the parser -/

namespace Grammar

variable {ts : List Token} {e e' : Expr}

/-- Words have at most one tree. -/
theorem Sentence.unique (h : Sentence ts e) (h' : Sentence ts e') : e = e' := by
  have hread : ∀ {e}, Sentence ts e → ∀ n, e.nesting ≤ n →
      (Reader.operand n).sum.read ts = ⟨.ok e, []⟩ := by
    intro e he n hn
    have := (Reader.complete_operand n).sum ts e he hn [] (by rintro _ ⟨⟩)
    rwa [List.append_nil] at this
  have heq := (hread h (max e.nesting e'.nesting) (Nat.le_max_left _ _)).symm.trans
    (hread h' _ (Nat.le_max_right _ _))
  cases heq
  rfl

end Grammar

namespace Expr

open Grammar

theorem sound_parse (tokens : List Token) :
    (parse tokens).Sound fun e _ => Sentence (words tokens) e ∧ e.nesting ≤ maxNesting := by
  refine ((Reader.sound_operand maxNesting).sum tokens).andThen ?_
  rintro e rest ⟨ts, rfl, he, hnesting⟩
  split
  · next hend =>
    have hrest : ∀ token ∈ rest.head?, token = .eof := by
      intro token htoken
      rwa [List.headD_eq_head?_getD, htoken] at hend
    exact Reading.sound_ok ⟨(words_append he.eof_not_mem hrest).symm ▸ he, hnesting⟩
  · exact Reading.sound_fail rfl

/-- A sentence that is not nested too deeply is parsed as its tree. -/
theorem parse_of_sentence {tokens : List Token} {e : Expr} (he : Sentence (words tokens) e)
    (hnesting : e.nesting ≤ maxNesting) : (parse tokens).outcome = .ok e := by
  obtain ⟨rest, htokens, hrest⟩ := exists_eq_words_append tokens
  have hread := (Reader.complete_operand maxNesting).sum _ e he hnesting rest
    fun token htoken => hrest token htoken ▸ ⟨rfl, rfl⟩
  rw [← htokens] at hread
  have hend : rest.headD .eof = .eof := by
    cases rest with
    | nil => rfl
    | cons token rest => exact hrest token rfl
  rw [parse, sumReader, hread, Reading.andThen]
  simp only [hend]

/-- The parser accepts the sentences of the grammar that are not nested too deeply, with the tree
that they have and no other, and finds fault with a token of everything else. -/
theorem parse_iff_sentence (tokens : List Token) :
    (∀ e, (parse tokens).outcome = .ok e ↔
      Sentence (words tokens) e ∧ e.nesting ≤ maxNesting) ∧
    (∀ e e', Sentence (words tokens) e → Sentence (words tokens) e' → e = e') ∧
    ∀ err, (parse tokens).outcome = .error err → err.isUnexpectedToken = true := by
  have hsound := sound_parse tokens
  refine ⟨fun e => ⟨hsound.good e, ?_⟩, fun _ _ => Sentence.unique, hsound.fault⟩
  rintro ⟨he, hnesting⟩
  exact parse_of_sentence he hnesting

end Expr

end LiveSheet
