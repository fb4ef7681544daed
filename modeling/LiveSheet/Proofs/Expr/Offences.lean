import LiveSheet.Proofs.Decimal.Plain
import LiveSheet.Proofs.Expr.Lexemes

/-! # What a text spells, and what is wrong with it

The tokens of a text are what its lexemes stand for. A text has none if it has a character outside
the alphabet, or a lexeme that is a point by itself; reading it ends at the first of these. -/

namespace LiveSheet.Lexing

open NumberLexeme

variable {c : Char} {cs text run after rest : List Char} {lexemes : List (List Char)}

/-- The characters that an expression may consist of. -/
def InAlphabet (c : Char) : Prop :=
  Text.isBlank c = true ∨ c.isDigit = true ∨ c ∈ ['.', '+', '-', '*', '/', '(', ')']

/-- What a lexeme stands for: a symbol for itself, and a number for what is read from it. -/
inductive Spells : List Char → Token → Prop
  | plus : Spells ['+'] .plus
  | minus : Spells ['-'] .minus
  | times : Spells ['*'] .times
  | divide : Spells ['/'] .divide
  | openParen : Spells ['('] .openParen
  | closeParen : Spells [')'] .closeParen
  | number {run : List Char} {x : Float} (hrun : NumberRun run)
      (hx : Decimal.readNumber? run = some x) : Spells run (.number x)

/-- At the position the text has a character outside the alphabet, or a lexeme that is a point by
itself. -/
inductive Offends : (text : List Char) → (position : Nat) → ExprError → Prop
  | foreign {before after : List Char} {c : Char} (hc : ¬InAlphabet c) :
      Offends (before ++ c :: after) before.length (.unexpectedChar c before.length)
  | lonePoint {text after : List Char} {lexemes : List (List Char)} {position : Nat}
      (h : Falls text lexemes ('.' :: after)) (hpoint : LongestNumber ['.'] after)
      (hposition : position + ('.' :: after).length = text.length) :
      Offends text position (.invalidNumber "." position)

/-! ## Reading numbers -/

/-- The digits of a lexeme are read with nothing left behind them. -/
theorem readMagnitude?_chars {n : NumberLexeme} (h : Digits n) : Decimal.readMagnitude? n.chars =
    if n.hasDigit then some (Decimal.ofParts n.whole (n.fraction.getD [])) else none := by
  obtain ⟨whole, fraction⟩ := n
  have hwhole := h.whole
  unfold Decimal.readMagnitude?
  cases fraction with
  | none =>
      simp only [chars, hasDigit, List.takeWhile_eq_self_iff.mpr hwhole,
        List.dropWhile_eq_nil_iff.mpr hwhole, Option.getD_none, Decimal.readExponent?,
        Option.map_some, Int.add_zero]
      split <;> simp_all
  | some ds =>
      have hfraction := h.fraction
      simp only [Option.getD_some] at hfraction
      have hpoint : ∀ c ∈ ('.' :: ds).head?, c.isDigit = false := by
        rintro c ⟨⟩
        rfl
      simp only [chars, hasDigit, takeWhile_append_of_all hwhole hpoint,
        dropWhile_append_of_all hwhole hpoint, List.takeWhile_eq_self_iff.mpr hfraction,
        List.dropWhile_eq_nil_iff.mpr hfraction, Option.getD_some, Decimal.readExponent?,
        Option.map_some, Int.add_zero]
      split <;> simp_all

theorem chars_eq_point {n : NumberLexeme} (hne : n.chars ≠ [])
    (hdigit : n.hasDigit = false) : n.chars = ['.'] := by
  obtain ⟨whole, fraction⟩ := n
  simp only [hasDigit, Bool.not_eq_false', Bool.and_eq_true, List.isEmpty_iff] at hdigit
  obtain ⟨rfl, hfraction⟩ := hdigit
  cases fraction with
  | none => exact (hne rfl).elim
  | some ds =>
      rw [Option.getD_some] at hfraction
      rw [hfraction]
      rfl

theorem readNumber?_point : Decimal.readNumber? ['.'] = none := by
  decide +kernel

/-- A lexeme is read as a number if and only if it has a digit. -/
theorem readNumber?_chars {n : NumberLexeme} (h : Digits n) (hne : n.chars ≠ []) :
    Decimal.readNumber? n.chars = if n.hasDigit then some n.value else none := by
  have hmagnitude := readMagnitude?_chars h
  by_cases hdigit : n.hasDigit = true
  · rw [if_pos hdigit] at hmagnitude ⊢
    obtain ⟨c, cs, hchars, hc⟩ := (h.numberRun hne).exists_cons
    rw [hchars] at hmagnitude ⊢
    unfold Decimal.readNumber?
    split
    next negative unsigned hsign =>
    split at hsign
    · next heq => cases heq; cases hc
    · next heq => cases heq; cases hc
    · cases hsign
      simp only [hmagnitude]
      rfl
  · rw [if_neg hdigit, chars_eq_point hne (Bool.eq_false_iff.mpr hdigit), readNumber?_point]

/-! ## Reading tokens -/

/-- The text falls into lexemes that spell the tokens, up to the rest. -/
def Reaches (text : List Char) (words : List Token) (rest : List Char) : Prop :=
  ∃ lexemes, Falls text lexemes rest ∧ List.Forall₂ Spells lexemes words

/-- What stops the reading of tokens at the front of a text. -/
inductive Fault : (text : List Char) → (position : Nat) → ExprError → Prop
  | foreign {c : Char} {cs : List Char} {position : Nat} (hc : ¬InAlphabet c) :
      Fault (c :: cs) position (.unexpectedChar c position)
  | lonePoint {after : List Char} {position : Nat} (hpoint : LongestNumber ['.'] after) :
      Fault ('.' :: after) position (.invalidNumber "." position)

variable {token : Token} {words : List Token}

theorem spells_of_ofSymbol? (h : Token.ofSymbol? c = some token) : Spells [c] token := by
  unfold Token.ofSymbol? at h
  split at h <;> cases h
  · exact .plus
  · exact .minus
  · exact .times
  · exact .divide
  · exact .openParen
  · exact .closeParen

theorem not_isBlank_of_ofSymbol? (h : Token.ofSymbol? c = some token) :
    Text.isBlank c = false ∧ startsWith c = false := by
  unfold Token.ofSymbol? at h
  split at h <;> first | decide | cases h

theorem not_inAlphabet (hblank : ¬Text.isBlank c = true) (hsymbol : Token.ofSymbol? c = none)
    (hstart : ¬startsWith c = true) : ¬InAlphabet c := by
  rw [Token.startsWith_eq_true_iff, not_or] at hstart
  rintro (hc | hc | hc)
  · exact hblank hc
  · exact hstart.1 hc
  · rcases List.mem_cons.mp hc with hc | hc
    · exact hstart.2 hc
    · fin_cases hc <;> cases hsymbol

namespace Reaches

theorem stop (rest : List Char) : Reaches rest [] rest :=
  ⟨[], .stop rest, .nil⟩

theorem blank (hc : Text.isBlank c = true) (h : Reaches text words rest) :
    Reaches (c :: text) words rest := by
  obtain ⟨lexemes, hfalls, hspells⟩ := h
  exact ⟨lexemes, .blank hc hfalls, hspells⟩

theorem symbol (hc : Token.ofSymbol? c = some token) (h : Reaches text words rest) :
    Reaches (c :: text) (token :: words) rest := by
  obtain ⟨lexemes, hfalls, hspells⟩ := h
  obtain ⟨hblank, hstart⟩ := not_isBlank_of_ofSymbol? hc
  exact ⟨[c] :: lexemes, .single hblank hstart hfalls, .cons (spells_of_ofSymbol? hc) hspells⟩

theorem number (hc : startsWith c = true) (hdigit : (split (c :: cs)).1.hasDigit = true)
    (h : Reaches (split (c :: cs)).2 words rest) :
    Reaches (c :: cs) (.number (split (c :: cs)).1.value :: words) rest := by
  obtain ⟨lexemes, hfalls, hspells⟩ := h
  have hrun := longestNumber_split cs hc
  have hspell : Spells (split (c :: cs)).1.chars (.number (split (c :: cs)).1.value) := by
    refine .number hrun.numberRun ?_
    rw [readNumber?_chars (split_spec _).1 hrun.numberRun.ne_nil, if_pos hdigit]
  have hnumber := Falls.number hrun hfalls
  rw [chars_append_split] at hnumber
  exact ⟨_, hnumber, .cons hspell hspells⟩

end Reaches

variable {done tokens : List Token} {position : Nat} {e : ExprError}

/-- Reading that succeeds has gone through all lexemes of the text. -/
theorem reaches_of_tokensOnto (h : (Cursor.tokensOnto done text position).1 = .ok tokens) :
    ∃ words, tokens = done.reverse ++ (words ++ [.eof]) ∧ Reaches text words [] := by
  fun_induction Cursor.tokensOnto done text position with
  | case1 =>
      cases h
      exact ⟨[], by simp, .stop []⟩
  | case2 _ _ _ _ hc ih =>
      obtain ⟨words, htokens, hreaches⟩ := ih h
      exact ⟨words, htokens, hreaches.blank hc⟩
  | case3 _ _ _ _ _ token hsymbol ih =>
      obtain ⟨words, htokens, hreaches⟩ := ih h
      exact ⟨token :: words, by simp [htokens], hreaches.symbol hsymbol⟩
  | case4 _ _ _ _ _ _ hc _ number _ _ hdigit ih =>
      obtain ⟨words, htokens, hreaches⟩ := ih h
      exact ⟨.number number.value :: words, by simp [htokens], hreaches.number hc hdigit⟩
  | case5 => cases h
  | case6 => cases h

/-- Reading that fails has gone through the lexemes of the text up to a fault. -/
theorem fault_of_tokensOnto (h : (Cursor.tokensOnto done text position).1 = .error e) :
    ∃ words rest p, Reaches text words rest ∧ p + rest.length = position + text.length ∧
      Fault rest p e := by
  fun_induction Cursor.tokensOnto done text position with
  | case1 => cases h
  | case2 _ _ _ _ hc ih =>
      obtain ⟨words, rest, p, hreaches, hp, hfault⟩ := ih h
      exact ⟨words, rest, p, hreaches.blank hc, by rw [hp, List.length_cons]; omega, hfault⟩
  | case3 _ _ _ _ _ token hsymbol ih =>
      obtain ⟨words, rest, p, hreaches, hp, hfault⟩ := ih h
      exact ⟨token :: words, rest, p, hreaches.symbol hsymbol,
        by rw [hp, List.length_cons]; omega, hfault⟩
  | case4 _ _ c cs _ _ hc _ number after next hdigit ih =>
      obtain ⟨words, rest, p, hreaches, hp, hfault⟩ := ih h
      have hlength : number.chars.length + after.length = (c :: cs).length := by
        rw [← List.length_append]
        exact congrArg List.length (chars_append_split (c :: cs))
      refine ⟨.number number.value :: words, rest, p, hreaches.number hc hdigit, ?_, hfault⟩
      rw [hp, ← hlength, Nat.add_assoc]
  | case5 _ position c cs _ _ hc _ number after _ hdigit =>
      cases h
      have hrun : LongestNumber number.chars after := longestNumber_split cs hc
      have htext : number.chars ++ after = c :: cs := chars_append_split (c :: cs)
      have hpoint : number.chars = ['.'] :=
        chars_eq_point hrun.numberRun.ne_nil (Bool.eq_false_iff.mpr hdigit)
      rw [hpoint] at hrun htext ⊢
      exact ⟨[], c :: cs, position, .stop _, rfl, htext ▸ .lonePoint hrun⟩
  | case6 _ position c cs hblank hsymbol hstart =>
      cases h
      exact ⟨[], c :: cs, position, .stop _, rfl, .foreign (not_inAlphabet hblank hsymbol hstart)⟩

/-! ## Offences -/

theorem Spells.inAlphabet {lexeme : List Char} {token : Token} (h : Spells lexeme token) :
    ∀ c ∈ lexeme, InAlphabet c := by
  cases h with
  | number hrun _ =>
      intro c hc
      rcases hrun.all c hc with hdigit | rfl
      · exact .inr (.inl hdigit)
      · exact .inr (.inr (by decide))
  | _ =>
      rw [List.forall_mem_singleton]
      exact .inr (.inr (by decide))

/-- A number that is read from a lexeme has a digit. -/
theorem Spells.exists_isDigit {token : Token} (h : Spells run token) (hrun : NumberRun run) :
    ∃ c ∈ run, c.isDigit = true := by
  by_contra hnone
  have hpoint : run = ['.'] := by
    obtain ⟨c, cs, rfl⟩ := List.exists_cons_of_ne_nil hrun.ne_nil
    have hall : ∀ d ∈ c :: cs, d = '.' := fun d hd =>
      (hrun.all d hd).resolve_left fun hdigit => hnone ⟨d, hd, hdigit⟩
    have hlength := hrun.points
    rw [List.count_eq_length.mpr fun d hd => (hall d hd).symm, List.length_cons] at hlength
    obtain rfl : cs = [] := List.eq_nil_of_length_eq_zero (by omega)
    rw [hall c List.mem_cons_self]
  subst hpoint
  cases h with
  | number _ hx =>
      rw [readNumber?_point] at hx
      cases hx

theorem eof_not_mem (h : List.Forall₂ Spells lexemes words) : .eof ∉ words := by
  induction h with
  | nil => exact List.not_mem_nil
  | cons hspell _ ih => exact List.not_mem_cons_of_ne_of_not_mem (by rintro rfl; cases hspell) ih

theorem exists_spells_of_mem (h : List.Forall₂ Spells lexemes words) (hrun : run ∈ lexemes) :
    ∃ token, Spells run token := by
  induction h with
  | nil => cases hrun
  | cons hspell _ ih =>
      rcases List.mem_cons.mp hrun with rfl | hrun
      · exact ⟨_, hspell⟩
      · exact ih hrun

theorem Reaches.inAlphabet (h : Reaches text words rest) :
    ∃ consumed, text = consumed ++ rest ∧ ∀ c ∈ consumed, InAlphabet c := by
  obtain ⟨lexemes, hfalls, hspells⟩ := h
  obtain ⟨consumed, htext, hflatten⟩ := hfalls.exists_consumed
  refine ⟨consumed, htext, fun c hc => ?_⟩
  by_cases hblank : Text.isBlank c = true
  · exact .inl hblank
  · have hmem : c ∈ lexemes.flatten := by
      rw [hflatten]
      exact List.mem_filter.mpr ⟨hc, by simp [hblank]⟩
    obtain ⟨lexeme, hlexeme, hc⟩ := List.mem_flatten.mp hmem
    obtain ⟨token, hspell⟩ := exists_spells_of_mem hspells hlexeme
    exact hspell.inAlphabet c hc

namespace Offends

variable {p q : Nat} {e' : ExprError}

theorem of_fault (h : Reaches text words rest) (hp : p + rest.length = text.length)
    (hfault : Fault rest p e) : Offends text p e := by
  obtain ⟨lexemes, hfalls, -⟩ := h
  cases hfault with
  | foreign hc =>
      obtain ⟨before, rfl, rfl⟩ := hfalls.exists_before hp
      exact .foreign hc
  | lonePoint hpoint => exact .lonePoint hfalls hpoint hp

/-- The character at fault. -/
theorem exists_getElem? (h : Offends text p e) : ∃ c, text[p]? = some c ∧
    (¬InAlphabet c ∧ e = .unexpectedChar c p ∨ c = '.' ∧ e = .invalidNumber "." p) := by
  cases h with
  | foreign hc => exact ⟨_, by simp, .inl ⟨hc, rfl⟩⟩
  | lonePoint h _ hposition =>
      obtain ⟨before, rfl, rfl⟩ := h.exists_before hposition
      exact ⟨'.', by simp, .inr ⟨rfl, rfl⟩⟩

theorem unique (h : Offends text p e) (h' : Offends text p e') : e = e' := by
  have hpoint : InAlphabet '.' := .inr (.inr (by decide))
  obtain ⟨c, hc, he⟩ := h.exists_getElem?
  obtain ⟨c', hc', he'⟩ := h'.exists_getElem?
  obtain rfl := Option.some.inj (hc.symm.trans hc')
  rcases he with ⟨hforeign, rfl⟩ | ⟨rfl, rfl⟩
  · rcases he' with ⟨-, rfl⟩ | ⟨rfl, -⟩
    · rfl
    · exact (hforeign hpoint).elim
  · rcases he' with ⟨hforeign, -⟩ | ⟨-, rfl⟩
    · exact (hforeign hpoint).elim
    · rfl

/-- There is no offence among lexemes that spell tokens. -/
theorem le (h : Offends text q e) (hreaches : Reaches text words rest)
    (hp : p + rest.length = text.length) : p ≤ q := by
  -- An offence before the rest would be a character of a lexeme, or a lexeme itself.
  by_contra hlt
  cases h with
  | @foreign before after c hc =>
      obtain ⟨consumed, htext, hall⟩ := hreaches.inAlphabet
      have hlength := congrArg List.length htext
      simp only [List.length_append] at hlength hp
      refine hc (hall c (List.mem_of_getElem? (i := before.length) ?_))
      rw [← List.getElem?_append_left (by omega : before.length < consumed.length), ← htext]
      simp
  | @lonePoint _ after lexemes _ h hpoint hposition =>
      obtain ⟨_, hfalls, hspells⟩ := hreaches
      obtain ⟨more, rfl, hmore⟩ := h.exists_more hfalls (by omega)
      rcases Falls.of_number hpoint hmore with ⟨-, rfl⟩ | ⟨more, rfl, -⟩
      · rw [List.singleton_append] at hp
        omega
      · have hmem : ['.'] ∈ lexemes ++ ['.'] :: more := by simp
        obtain ⟨token, hspell⟩ := exists_spells_of_mem hspells hmem
        obtain ⟨c, hc, hdigit⟩ := hspell.exists_isDigit hpoint.numberRun
        rw [List.mem_singleton.mp hc] at hdigit
        cases hdigit

end Offends

end LiveSheet.Lexing

namespace LiveSheet.Token

open Lexing

variable {text : String}

theorem reaches_of_ofText {tokens : List Token} (h : ofText text = .ok tokens) :
    ∃ words, tokens = words ++ [.eof] ∧ Reaches text.toList words [] :=
  reaches_of_tokensOnto h

theorem fault_of_ofText {e : ExprError} (h : ofText text = .error e) : ∃ words rest p,
    Reaches text.toList words rest ∧ p + rest.length = text.toList.length ∧ Fault rest p e := by
  obtain ⟨words, rest, p, hreaches, hp, hfault⟩ := fault_of_tokensOnto h
  exact ⟨words, rest, p, hreaches, hp.trans (Nat.zero_add _), hfault⟩

theorem exists_ofText_iff : (∃ tokens, ofText text = .ok tokens) ↔
    (∀ c ∈ text.toList, InAlphabet c) ∧ ∀ lexemes, Falls text.toList lexemes [] →
      ∀ run ∈ lexemes, NumberRun run → ∃ c ∈ run, c.isDigit = true := by
  constructor
  · rintro ⟨tokens, h⟩
    obtain ⟨words, -, hreaches⟩ := reaches_of_ofText h
    obtain ⟨consumed, htext, hall⟩ := hreaches.inAlphabet
    rw [List.append_nil] at htext
    refine ⟨htext ▸ hall, fun lexemes hfalls run hmem hrun => ?_⟩
    obtain ⟨lexemes', hfalls', hspells⟩ := hreaches
    obtain rfl := hfalls'.unique hfalls
    obtain ⟨token, hspell⟩ := exists_spells_of_mem hspells hmem
    exact hspell.exists_isDigit hrun
  · rintro ⟨hall, hdigit⟩
    cases h : ofText text with
    | ok tokens => exact ⟨tokens, rfl⟩
    | error e =>
        obtain ⟨words, rest, p, ⟨lexemes, hfalls, -⟩, hp, hfault⟩ := fault_of_ofText h
        cases hfault with
        | @foreign c cs _ hc =>
            obtain ⟨before, htext, -⟩ := hfalls.exists_before hp
            exact (hc (hall c (by rw [htext]; simp))).elim
        | @lonePoint after _ hpoint =>
            obtain ⟨more, hmore⟩ := Falls.exists_lexemes after
            have hfalls := hfalls.trans (.number hpoint hmore)
            obtain ⟨c, hc, hcdigit⟩ := hdigit _ hfalls ['.'] (by simp) hpoint.numberRun
            rw [List.mem_singleton.mp hc] at hcdigit
            cases hcdigit

theorem ofText_eq_error_iff {e : ExprError} : ofText text = .error e ↔
    ∃ p, Offends text.toList p e ∧ ∀ q e', Offends text.toList q e' → p ≤ q := by
  have herror : ∀ {e}, ofText text = .error e →
      ∃ p, Offends text.toList p e ∧ ∀ q e', Offends text.toList q e' → p ≤ q := by
    intro e h
    obtain ⟨words, rest, p, hreaches, hp, hfault⟩ := fault_of_ofText h
    exact ⟨p, .of_fault hreaches hp hfault, fun q e' hq => hq.le hreaches hp⟩
  refine ⟨herror, ?_⟩
  rintro ⟨p, hp, hleast⟩
  cases h : ofText text with
  | error e' =>
      obtain ⟨p', hp', hleast'⟩ := herror h
      obtain rfl := Nat.le_antisymm (hleast p' e' hp') (hleast' p e hp)
      rw [hp.unique hp']
  | ok tokens =>
      obtain ⟨words, -, hreaches⟩ := reaches_of_ofText h
      have hend := hp.le hreaches (Nat.add_zero _)
      obtain ⟨c, hc, -⟩ := hp.exists_getElem?
      rw [List.getElem?_eq_none hend] at hc
      cases hc

/-- A text falls into lexemes in one way. It is read if it has no character outside the alphabet and
every number among its lexemes has a digit; then its tokens are what its lexemes stand for, which
are all of the text but its blanks, and the end. Otherwise the error tells the leftmost offence. -/
theorem ofText_exact (text : String) :
    (∃! lexemes, Falls text.toList lexemes []) ∧
    ((∃ tokens, ofText text = .ok tokens) ↔
      (∀ c ∈ text.toList, InAlphabet c) ∧ ∀ lexemes, Falls text.toList lexemes [] →
        ∀ run ∈ lexemes, NumberRun run → ∃ c ∈ run, c.isDigit = true) ∧
    (∀ tokens, ofText text = .ok tokens → ∃ lexemes words, Falls text.toList lexemes [] ∧
      lexemes.flatten = text.toList.filter (fun c => !Text.isBlank c) ∧
      List.Forall₂ Spells lexemes words ∧ tokens = words ++ [.eof] ∧ .eof ∉ words) ∧
    ∀ e, ofText text = .error e ↔
      ∃ p, Offends text.toList p e ∧ ∀ q e', Offends text.toList q e' → p ≤ q := by
  refine ⟨?_, exists_ofText_iff, fun tokens h => ?_, fun e => ofText_eq_error_iff⟩
  · obtain ⟨lexemes, h⟩ := Falls.exists_lexemes text.toList
    exact ⟨lexemes, h, fun _ h' => h'.unique h⟩
  · obtain ⟨words, htokens, lexemes, hfalls, hspells⟩ := reaches_of_ofText h
    obtain ⟨consumed, htext, hflatten⟩ := hfalls.exists_consumed
    rw [List.append_nil] at htext
    exact ⟨lexemes, words, hfalls, htext ▸ hflatten, hspells, htokens, eof_not_mem hspells⟩

/-- A second point starts the next number. -/
example : ofText "1.2.5" = .ok [.number 1.2, .number 0.5, .eof] := by decide +kernel

/-- The point between the blanks comes before the character that is no part of an expression. -/
example : ofText "1. . a" = .error (.invalidNumber "." 3) := by decide +kernel

end LiveSheet.Token
